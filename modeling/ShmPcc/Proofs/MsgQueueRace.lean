import ShmPcc.Proofs.MsgQueue

/-!
# One producer against one consumer

The producer owns `tail`, the consumer owns `head`, and neither writes a byte
the other reads while `Rep` holds: the producer copies behind the last message,
the consumer reads the first one. What the producer learns about the free space
stays a lower bound, because the consumer only gives bytes back.

There are two ways to lose this. `get_remain_space` compares the pointers and
then reads them again; if the comparison found `tail < head` and the consumer
wraps `head` to the start in between, `head - tail` is negative, and as a
`size_t` it is more than the ring has. And a message that takes exactly the
free space leaves `head == tail`, from where the next check counts the whole
ring as free. `tame` rules out these two steps and nothing else.
-/

namespace ShmPcc.MsgQueue

open Prog

/-- The restriction: where the comparison found the head behind the tail, it is
not in front of it when it is read again; and no message takes exactly the free
space. -/
def tame : Cond Site Mem Op where
  atCall _ _ _ := True
  atStep l m :=
    match l with
    | .diffHead => m.tail ≤ m.head
    | .tmpTail total remainingSpace => total ≤ remainingSpace → total ≠ m.free
    | _ => True

instance (t : Nat) (op : Op) (m : Mem) : Decidable (tame.atCall t op m) := .isTrue trivial

instance (l : Site) (m : Mem) : Decidable (tame.atStep l m) :=
  match l with
  | .diffHead => inferInstanceAs (Decidable (m.tail ≤ m.head))
  | .tmpTail total remainingSpace =>
    inferInstanceAs (Decidable (total ≤ remainingSpace → total ≠ m.free))
  | .cmpTail | .cmpHead | .spaceTail | .spaceHead | .diffTail | .copyIn | .copyInRest
  | .storeTail | .emptyHead | .emptyTail | .tmpHead | .nodeLength | .copyOut | .copyOutRest
  | .storeHead => .isTrue trivial

/-- Every space check that was passed asked for bytes that were free. -/
def Sound (m : Mem) : Prop := ∀ x ∈ m.passed, x.1 ≤ x.2

def Inv (m : Mem) : Prop := Rep m ∧ Sound m

/-- What the producer does: messages come at the end, the head stays. -/
def Produces (m m' : Mem) : Prop :=
  m'.head = m.head ∧ ∃ new, m'.pending = m.pending ++ new

/-- What the consumer does: messages go at the front, and the head passes over
them; tail and bytes stay. -/
def Consumes (m m' : Mem) : Prop :=
  m'.tail = m.tail ∧ m'.msg = m.msg ∧ ∃ gone, m.pending = gone ++ m'.pending ∧
    Nat.ModEq msgSize m'.head (m.head + gone.flatten.length)

def Guar : Nat → Mem → Mem → Prop
  | 0 => Produces
  | 1 => Consumes
  | _ => Eq

theorem Guar.refl : ∀ (t : Nat) (m : Mem), Guar t m m
  | 0, _ => ⟨rfl, [], (List.append_nil _).symm⟩
  | 1, _ => ⟨rfl, rfl, [], rfl, Nat.ModEq.refl _⟩
  | _ + 2, _ => rfl

def ctx (t : Nat) : Ctx Site Mem := Ctx.pool Inv Guar Guar.refl tame.atStep t

/-! ## What each side can rely on -/

section Stable

variable {A : Mem → Prop}

/-- Only the other side of the two moves anything. -/
theorem stable_of {t : Nat} (ht : t < 2)
    (hA : ∀ {m m'}, Inv m → Inv m' → Guar (1 - t) m m' → A m → A m') : (ctx t).Stable A := by
  intro m m' hr hm
  refine Others.kept ?_ hr hm
  intro u a b hu ha hb hg h
  obtain rfl | ⟨v, rfl⟩ : u = 1 - t ∨ ∃ v, u = v + 2 := by
    by_cases h2 : 2 ≤ u
    · exact .inr ⟨u - 2, by omega⟩
    · exact .inl (by omega)
  · exact hA ha hb hg h
  · exact (show a = b from hg) ▸ h

theorem producer_stable (hA : ∀ {m m'}, Inv m → Inv m' → Consumes m m' → A m → A m') :
    (ctx 0).Stable A := stable_of (by decide) hA

theorem consumer_stable (hA : ∀ {m m'}, Inv m → Inv m' → Produces m m' → A m → A m') :
    (ctx 1).Stable A := stable_of (by decide) hA

end Stable

variable {m m' : Mem}

theorem Consumes.used_le (h : Consumes m m') : m'.used ≤ m.used := by
  obtain ⟨_, _, gone, hp, _⟩ := h
  rw [Mem.used, Mem.used, hp, List.flatten_append, List.length_append]
  omega

theorem Consumes.free_le (h : Consumes m m') : m.free ≤ m'.free :=
  Nat.sub_le_sub_left h.used_le _

theorem Consumes.head_le (hm : Rep m) (hm' : Rep m') (h : Consumes m m')
    (hle : m.head ≤ m.tail) : m'.head ≤ m'.tail := by
  obtain ⟨ht, _, gone, hp, hmod⟩ := h
  have hlt := hm.tail_lt
  have hused : m.used = gone.flatten.length + m'.used := by
    rw [Mem.used, Mem.used, hp, List.flatten_append, List.length_append]
  have hhead : m'.head = m.head + gone.flatten.length := by
    rcases hm.tail_cases with ⟨_, htail⟩ | ⟨hlt', _⟩
    · rw [Nat.ModEq, Nat.mod_eq_of_lt hm'.head_lt, Nat.mod_eq_of_lt (by omega)] at hmod
      exact hmod
    · omega
  rcases hm.tail_cases with ⟨_, htail⟩ | ⟨hlt', _⟩ <;> omega

/-! ## The producer -/

/-- The tail where it was read, and at least `k` bytes free. -/
def Room (t k : Nat) (m : Mem) : Prop := m.tail = t ∧ k ≤ m.free

theorem room_stable (t k : Nat) : (ctx 0).Stable (Room t k) :=
  producer_stable fun _ _ hc h => ⟨hc.1.trans h.1, h.2.trans hc.free_le⟩

theorem toSizeT_toInt {x : Int} (h0 : 0 ≤ x) (h1 : x ≤ msgSize) : toSizeT (toInt x) = x.toNat := by
  rw [toInt_eq h0 h1, toSizeT_eq h0 h1]

/-- The remaining space is a lower bound of the free space, from the moment it
is computed on. -/
theorem getRemainSpace_wp (m : Mem) :
    getRemainSpace.wp (ctx 0) (fun r s => toSizeT r ≤ s.free) m := by
  refine wp_read fun s₁ _ _ _ => ?_
  refine wp_read_of (room_stable s₁.tail 0) ⟨rfl, Nat.zero_le _⟩ fun s₂ _ h₂ => ?_
  split
  · next hle =>
    -- from here on the head does not run past the tail
    have hA : ∀ t, (ctx 0).Stable fun s : Mem => s.tail = t ∧ s.head ≤ s.tail := fun t =>
      producer_stable fun ha hb hc h => ⟨hc.1.trans h.1, hc.head_le ha.1 hb.1 h.2⟩
    refine wp_read_of (hA s₁.tail) ⟨h₂.1, h₂.1 ▸ hle⟩ fun s₃ _ h₃ => ?_
    refine wp_read_of (hA s₃.tail) ⟨rfl, h₃.2⟩ fun s₄ hi₄ h₄ => ?_
    refine wp_ret_of (room_stable s₄.tail s₄.free) ⟨rfl, le_rfl⟩ fun s₅ _ h₅ => ?_
    have hfree := hi₄.1.free_eq
    have hlt := hi₄.1.tail_lt
    rw [Mem.remainSpace, if_pos h₄.2] at hfree
    rw [← h₄.1, toSizeT_toInt (by omega) (by omega)]
    have := h₅.2
    omega
  · next hlt =>
    refine wp_read fun s₃ hr₃ hi₃ hok => ?_
    have h₃ := room_stable s₁.tail 0 _ _ hr₃ h₂
    have hle : s₃.tail ≤ s₃.head := hok
    have hroom : s₃.head - s₃.tail ≤ s₃.free := by
      rw [hi₃.1.free_eq, Mem.remainSpace]
      split
      · omega
      · exact le_rfl
    refine wp_read_of (room_stable s₃.tail (s₃.head - s₃.tail)) ⟨rfl, hroom⟩ fun s₄ _ h₄ => ?_
    refine wp_ret_of (room_stable s₄.tail (s₃.head - s₃.tail)) ⟨rfl, h₄.2⟩ fun s₅ _ h₅ => ?_
    have hhead := hi₃.1.head_lt
    rw [h₄.1, toSizeT_toInt (by omega) (by omega)]
    have := h₅.2
    omega

/-- Inside the copies: what has been copied so far, and room for the whole. -/
def Copying (node : Nat → UInt8) (t : Nat) (l : List UInt8) (m : Mem) : Prop :=
  m.tail = t ∧ totalSize node < m.free ∧ RingHolds msgSize m.msg t l

theorem copying_stable (node : Nat → UInt8) (t : Nat) (l : List UInt8) :
    (ctx 0).Stable (Copying node t l) := by
  refine producer_stable fun _ _ hc h => ?_
  obtain ⟨ht, hfree, hold⟩ := h
  exact ⟨hc.1.trans ht, hfree.trans_le hc.free_le, hc.2.1 ▸ hold⟩

theorem Inv.overwrite (h : Inv m) (src : Nat → UInt8) (s size k : Nat) {q : Nat}
    (hq : q = (m.tail + k) % msgSize) (hroom : k + size ≤ m.free) (hend : q + size ≤ msgSize) :
    Inv { m with msg := overwrite m.msg q src s size } ∧
      Produces m { m with msg := overwrite m.msg q src s size } :=
  ⟨⟨h.1.overwrite src s size k hq hroom hend, h.2⟩, rfl, [], (List.append_nil _).symm⟩

theorem storeTail_wp {node : Nat → UInt8} {t t' : Nat} (h : Copying node t (content node) m)
    (ht' : t' = (t + totalSize node) % msgSize) :
    (write .storeTail (fun m => { m with tail := t', pending := m.push node }) >>=
      fun _ => ret (0 : Int)).wp (ctx 0) (fun _ _ => True) m := by
  refine wp_write fun s hr hi _ => ?_
  obtain ⟨ht, hfree, hold⟩ := copying_stable _ _ _ _ _ hr h
  subst ht
  refine ⟨⟨hi.1.push hfree ht' hold, hi.2⟩, ⟨rfl, ?_⟩, fun _ _ _ => trivial⟩
  show ∃ new, s.push node = s.pending ++ new
  rw [Mem.push]
  split
  · exact ⟨[], (List.append_nil _).symm⟩
  · exact ⟨[content node], rfl⟩

theorem putMsg_wp {node : Nat → UInt8} (hi : Inv m) (hfree : totalSize node < m.free) :
    (putMsg node m.tail).wp (ctx 0) (fun _ _ => True) m := by
  have hsize : m.free ≤ msgSize := Nat.sub_le ..
  have htail := hi.1.tail_lt
  have hline := hi.1.tail_line
  have htotal := totalSize_line node
  have hring := msgSize_line
  simp only [putMsg, spaceAtEnd_eq htail.le]
  have h0 : Copying node m.tail [] m := ⟨rfl, hfree, .nil⟩
  generalize m.tail = t at *
  split
  · next hfit =>
    rw [memcpyNtWrite_eq htotal hline rfl]
    refine wp_write fun s hr hs _ => ?_
    obtain ⟨ht, hroom, _⟩ := copying_stable _ _ _ _ _ hr h0
    obtain ⟨hinv, hg⟩ := hs.overwrite node 0 (totalSize node) 0 (q := t)
      (by rw [ht]; exact (Nat.mod_eq_of_lt htail).symm) (by omega) (by omega)
    exact ⟨hinv, hg, storeTail_wp ⟨ht, hroom, holds_whole hfit htail.le⟩ (adjust_eq (by omega))⟩
  · next hsplit =>
    rw [memcpyNtWrite_eq (by omega) hline rfl, memcpyNtWrite_eq (by omega) rfl (by omega)]
    refine wp_write fun s hr hs _ => ?_
    obtain ⟨ht, hroom, _⟩ := copying_stable _ _ _ _ _ hr h0
    obtain ⟨hinv, hg⟩ := hs.overwrite node 0 (msgSize - t) 0 (q := t)
      (by rw [ht]; exact (Nat.mod_eq_of_lt htail).symm) (by omega) (by omega)
    refine ⟨hinv, hg, ?_⟩
    have h1 : Copying node t (slice node 0 (msgSize - t))
        { s with msg := ShmPcc.overwrite s.msg t node 0 (msgSize - t) } :=
      ⟨ht, hroom, holds_first htail.le⟩
    refine wp_write fun s' hr' hs' _ => ?_
    obtain ⟨ht', hroom', hold'⟩ := copying_stable _ _ _ _ _ hr' h1
    obtain ⟨hinv', hg'⟩ := hs'.overwrite node (msgSize - t) (totalSize node - (msgSize - t))
      (msgSize - t) (q := 0)
      (by rw [ht', Nat.add_sub_cancel' htail.le, Nat.mod_self]) (by omega) (by omega)
    refine ⟨hinv', hg', storeTail_wp ⟨ht', hroom', ?_⟩ (adjust_wrap htail (by omega) (by omega))⟩
    exact holds_rest htail (by omega) (by omega) hold'

theorem enqueueMsg_wp (node : Nat → UInt8) (m : Mem) :
    (enqueueMsg node).wp (ctx 0) (fun _ _ => True) m := by
  refine wp_bind (wp_mono ?_ (getRemainSpace_wp m))
  intro r s _ hr
  refine wp_rmw fun s' hrely hi hok => ?_
  have hrem : toSizeT r ≤ s'.free := (room_stable s.tail _ _ _ hrely ⟨rfl, hr⟩).2
  by_cases hle : totalSize node ≤ toSizeT r
  · have hne : totalSize node ≠ s'.free := hok hle
    have hcheck : s'.check (totalSize node) (toSizeT r) =
        { s' with passed := s'.passed ++ [(totalSize node, s'.free)] } := if_pos hle
    have hinv : Inv { s' with passed := s'.passed ++ [(totalSize node, s'.free)] } := by
      refine ⟨{ hi.1 with }, fun x hx => ?_⟩
      rcases List.mem_append.mp hx with hx | hx
      · exact hi.2 x hx
      · rw [List.mem_singleton.mp hx]
        exact hle.trans hrem
    rw [hcheck, if_neg (Nat.not_lt.mpr hle)]
    refine ⟨hinv, ⟨rfl, [], (List.append_nil _).symm⟩, ?_⟩
    exact putMsg_wp hinv (show totalSize node < s'.free by omega)
  · have hcheck : s'.check (totalSize node) (toSizeT r) = s' := if_neg hle
    rw [hcheck, if_pos (Nat.lt_of_not_le hle)]
    exact ⟨hi, Guar.refl 0 s', trivial⟩

/-! ## The consumer -/

/-- The head where it was read, with the message that lies there. -/
def First (h : Nat) (x : List UInt8) (m : Mem) : Prop :=
  m.head = h ∧ ∃ rest, m.pending = x :: rest

theorem first_stable (h : Nat) (x : List UInt8) : (ctx 1).Stable (First h x) := by
  refine consumer_stable fun _ _ hp hx => ?_
  obtain ⟨hhead, rest, hrest⟩ := hx
  obtain ⟨hsame, new, hnew⟩ := hp
  exact ⟨hsame.trans hhead, rest ++ new, by rw [hnew, hrest, List.cons_append]⟩

theorem nonempty_stable : (ctx 1).Stable fun m : Mem => m.pending ≠ [] := by
  refine consumer_stable fun _ _ hp hne => ?_
  obtain ⟨_, new, hnew⟩ := hp
  rw [hnew]
  exact List.append_ne_nil_of_left_ne_nil hne new

theorem isQueueEmpty_wp (m : Mem) :
    isQueueEmpty.wp (ctx 1) (fun r s => r = false → s.pending ≠ []) m := by
  refine wp_read fun s₁ _ _ _ => ?_
  have hA : (ctx 1).Stable fun s : Mem => s.head = s₁.head :=
    consumer_stable fun _ _ hp h => hp.1.trans h
  refine wp_read_of hA rfl fun s₂ hi₂ h₂ => ?_
  intro s₃ hr _ hfalse
  have hne : s₂.pending ≠ [] := by
    rw [ne_eq, ← hi₂.1.empty_iff, h₂]
    exact beq_eq_false_iff_ne.mp hfalse
  exact nonempty_stable _ _ hr hne

/-- The store that hands the bytes of the first message back. -/
theorem storeHead_wp {α : Type} {h h' : Nat} {x : List UInt8} {r : α} (hx : First h x m)
    (hh : h' = (h + x.length) % msgSize) :
    (write .storeHead (fun m => { m with head := h', pending := m.pending.tail }) >>=
      fun _ => ret r).wp (ctx 1) (fun _ _ => True) m := by
  refine wp_write fun s hr hi _ => ?_
  obtain ⟨hhead, rest, hrest⟩ := first_stable _ _ _ _ hr hx
  subst hhead
  refine ⟨⟨hi.1.pop hrest hh, hi.2⟩, ⟨rfl, rfl, [x], ?_, ?_⟩, fun _ _ _ => trivial⟩
  · show s.pending = [x] ++ s.pending.tail
    rw [hrest]
    rfl
  · rw [hh, List.flatten_singleton]
    exact Nat.mod_modEq ..

theorem takeMsg_wp (hne : m.pending ≠ []) : takeMsg.wp (ctx 1) (fun _ _ => True) m := by
  refine wp_read_of nonempty_stable hne fun s₁ hi₁ hne₁ => ?_
  obtain ⟨x, rest, hrest⟩ := List.exists_cons_of_ne_nil hne₁
  have hhead := hi₁.1.head_lt
  have hline := hi₁.1.head_line
  have hx : Framed x := hi₁.1.framed x (by rw [hrest]; simp)
  have hxline := hx.line
  have hring := msgSize_line
  have hused := hi₁.1.used_lt
  rw [Rep.used_cons hrest] at hused
  have h₁ : First s₁.head x s₁ := ⟨rfl, rest, hrest⟩
  generalize s₁.head = h at *
  refine wp_read_of (first_stable h x) h₁ fun s₂ hi₂ h₂ => ?_
  obtain ⟨hh, rest', hrest'⟩ := h₂
  have htotal : (alignToCacheLine (readSizeT s₂.msg h)).toNat = x.length := by
    rw [← hh]
    exact hi₂.1.total_eq hrest'
  have h₂ : First h x s₂ := ⟨hh, rest', hrest'⟩
  simp only [htotal, spaceAtEnd_eq hhead.le]
  split
  · next hfit =>
    rw [memcpyNtRead_eq hxline rfl hline]
    refine wp_read_of (first_stable h x) h₂ fun s₃ _ h₃ => ?_
    exact storeHead_wp h₃ (adjust_eq (by omega))
  · next hsplit =>
    rw [memcpyNtRead_eq (by omega) rfl hline, memcpyNtRead_eq (by omega) (by omega) rfl]
    refine wp_read_of (first_stable h x) h₂ fun s₃ _ h₃ => ?_
    refine wp_read_of (first_stable h x) h₃ fun s₄ _ h₄ => ?_
    exact storeHead_wp h₄ (adjust_wrap hhead (by omega) (by omega))

theorem waitNonEmpty_wp (retries : Nat) : ∀ m : Mem,
    (waitNonEmpty retries).wp (ctx 1) (fun _ s => s.pending ≠ []) m := by
  induction retries with
  | zero => exact fun _ => trivial
  | succ retries ih =>
    intro m
    refine wp_bind (wp_mono ?_ (isQueueEmpty_wp m))
    intro r s _ hr
    cases r with
    | true => exact ih s
    | false => exact wp_ret_of nonempty_stable (hr rfl) fun _ _ h => h

theorem dequeueMsg_wp (retries : Nat) (blocking : Bool) (m : Mem) :
    (dequeueMsg retries blocking).wp (ctx 1) (fun _ _ => True) m := by
  rw [dequeueMsg]
  split
  · refine wp_bind (wp_mono ?_ (waitNonEmpty_wp retries m))
    exact fun _ s _ hne => wp_map (takeMsg_wp hne)
  · refine wp_bind (wp_mono ?_ (isQueueEmpty_wp m))
    intro r s _ hr
    cases r with
    | true => exact fun _ _ _ => trivial
    | false => exact wp_map (takeMsg_wp (hr rfl))

/-! ## Together -/

def outline (retries : Nat) : Outline (obj retries) tame :=
  .ofMoves Inv Guar (fun _ _ _ _ _ => True) Guar.refl
    (by
      intro t op s s' hi _ he
      simp only [obj] at he
      split at he
      · injection he with he
        subst he
        exact ⟨hi, Guar.refl _ _⟩
      · cases he)
    (by
      intro t op s s' _ _ he
      simp only [obj] at he
      split at he
      · next ht =>
        subst ht
        have hret : ∀ {t : Nat} {p : Prog Site Mem Ret}, p.wp (ctx t) (fun _ _ => True) s' →
            p.wp (ctx t) (fun _ m => Inv m ∧ Guar t m m ∧ True) s' := fun h =>
          wp_mono (fun _ m hm _ => ⟨hm, Guar.refl _ m, trivial⟩) h
        cases op with
        | enqueueMsg node => exact hret (wp_map (enqueueMsg_wp node s'))
        | dequeueMsg blocking => exact hret (wp_map (dequeueMsg_wp retries blocking s'))
        | isQueueEmpty =>
          exact hret (wp_map (wp_mono (fun _ _ _ _ => trivial) (isQueueEmpty_wp s')))
      · cases he)

/-- The queue as `init_msg_queue` leaves it. -/
def Initialised (m : Mem) : Prop := ∃ msg, m = Mem.initMsgQueue msg

theorem initialised_reach {K : Cond Site Mem Op} :
    (obj 0).Reach K Initialised (Cfg.init (Mem.initMsgQueue fun _ => 0)) := .init ⟨_, rfl⟩

theorem inv_of_reach {retries : Nat} {c : Cfg Site Mem Op Ret}
    (h : (obj retries).Reach tame Initialised c) : Inv c.mem := by
  have hinit : ∀ m, Initialised m → (outline retries).inv m := by
    rintro m ⟨msg, rfl⟩
    exact ⟨Rep.initMsgQueue msg, by simp [Sound, Mem.initMsgQueue]⟩
  exact ((outline retries).sound hinit h).mem_inv

/-- In every run of one producer and one consumer that takes neither of the two
steps, every space check that was passed asked for bytes that held no
undelivered message. -/
theorem space_check_sound {retries : Nat} {c : Cfg Site Mem Op Ret}
    (h : (obj retries).Reach tame Initialised c) :
    ∀ x ∈ c.mem.passed, x.1 ≤ x.2 :=
  (inv_of_reach h).2

/-- An enqueue of a message that is copied in one piece, from call to return. -/
def putWhole (node : Nat → UInt8) : List (Act Op) :=
  .call 0 (.enqueueMsg node) :: List.replicate 8 (.run 0)

/-- A dequeue of such a message. -/
def takeWhole : List (Act Op) := .call 1 (.dequeueMsg false) :: List.replicate 7 (.run 1)

/-- The consumer takes the first message in the middle of the second enqueue. -/
def twoPuts : List (Act Op) :=
  putWhole (plainMsg 100 1) ++
  [Act.call 0 (Op.enqueueMsg (plainMsg 64 2)), Act.run 0, Act.run 0] ++ takeWhole ++
  List.replicate 6 (Act.run 0)

theorem twoPuts_run :
    ((obj 0).runUnder tame twoPuts (Cfg.init (Mem.initMsgQueue fun _ => 0))).any fun c =>
      c.mem.passed = [(128, msgSize), (64, msgSize)] ∧ c.mem.head = 128 ∧ c.mem.tail = 192 := by
  decide +kernel

theorem space_check_sound_twoPuts : ∃ c : Cfg Site Mem Op Ret, (obj 0).Reach tame Initialised c ∧
      c.mem.passed = [(128, msgSize), (64, msgSize)] ∧ ∀ x ∈ c.mem.passed, x.1 ≤ x.2 := by
  obtain ⟨c, hreach, hpassed, _⟩ := Obj.Reach.of_any initialised_reach twoPuts_run
  exact ⟨c, hreach, hpassed, space_check_sound hreach⟩

/-- The head stands at the last line and the tail at the second one when the
producer compares them; before it reads them again the consumer takes the
message of the last line, and the head is at the start. -/
def wrapDuring (node : Nat → UInt8) : List (Act Op) :=
  putWhole (plainMsg (msgSize - 64) 1) ++ takeWhole ++
  putWhole (plainMsg 64 2) ++ putWhole (plainMsg 64 3) ++
  [Act.call 0 (Op.enqueueMsg node), Act.run 0, Act.run 0] ++ takeWhole ++
  [Act.run 0, Act.run 0, Act.run 0]

def wrapBetweenReads : List (Act Op) := wrapDuring (plainMsg msgSize 4)

theorem wrapBetweenReads_run :
    ((obj 0).runUnder Cond.free wrapBetweenReads (Cfg.init (Mem.initMsgQueue fun _ => 0))).any
      fun c => c.mem.passed.getLast? = some (msgSize, msgSize - 64) := by
  decide +kernel

/-- A message of the size of the whole ring passes the check while 64 bytes
hold an undelivered message. -/
theorem space_check_passes_without_room :
    ∃ c : Cfg Site Mem Op Ret, (obj 0).Reach Cond.free Initialised c ∧
      ∃ x ∈ c.mem.passed, x.2 < x.1 := by
  obtain ⟨c, hreach, hlast⟩ := Obj.Reach.of_any initialised_reach wrapBetweenReads_run
  refine ⟨c, hreach, _, List.mem_of_getLast? hlast, ?_⟩
  decide

/-! ## The pointers -/

/-- An offset that is stored in range was not reported. -/
theorem le_of_adjust_lt {offset : Nat} (h : adjust offset < msgSize) : offset ≤ msgSize := by
  rw [adjust] at h
  split at h <;> omega

/-- In every state of the same runs head and tail are at cache lines of the ring, and every
undelivered message has its header in front of the end. -/
theorem pointers_in_ring {retries : Nat} {c : Cfg Site Mem Op Ret}
    (h : (obj retries).Reach tame Initialised c) :
    (c.mem.head % cacheLineSize = 0 ∧ c.mem.head < msgSize) ∧
    (c.mem.tail % cacheLineSize = 0 ∧ c.mem.tail < msgSize) ∧
    (∀ l x r, c.mem.pending = l ++ x :: r →
      let start := (c.mem.head + l.flatten.length) % msgSize
      start + sizeofHeader ≤ msgSize ∧
        slice c.mem.msg start sizeofHeader = x.take sizeofHeader) ∧
    ∀ offset, c.mem.head = adjust offset ∨ c.mem.tail = adjust offset → offset ≤ msgSize := by
  have hrep : Rep c.mem := (inv_of_reach h).1
  refine ⟨⟨hrep.head_line, hrep.head_lt⟩, ⟨hrep.tail_line, hrep.tail_lt⟩,
    fun l x r hp => hrep.header hp, fun offset hoffset => ?_⟩
  rcases hoffset with hhead | htail
  · exact le_of_adjust_lt (hhead ▸ hrep.head_lt)
  · exact le_of_adjust_lt (htail ▸ hrep.tail_lt)

theorem pointers_in_ring_twoPuts : ∃ c : Cfg Site Mem Op Ret,
    (obj 0).Reach tame Initialised c ∧ c.mem.head = 128 ∧ c.mem.tail = 192 ∧
      (c.mem.tail % cacheLineSize = 0 ∧ c.mem.tail < msgSize) := by
  obtain ⟨c, hreach, _, hhead, htail⟩ := Obj.Reach.of_any initialised_reach twoPuts_run
  exact ⟨c, hreach, hhead, htail, (pointers_in_ring hreach).2.1⟩

theorem wrapDuring_run :
    ((obj 0).runUnder Cond.free (wrapDuring (plainMsg (2 * msgSize) 4) ++ List.replicate 3 (.run 0))
      (Cfg.init (Mem.initMsgQueue fun _ => 0))).any fun c => c.mem.tail = adjust (msgSize + 64) := by
  decide +kernel

/-- A message of twice the size of the ring is copied over its end, and the tail is stored
where it was reported to be out of range. -/
theorem tail_out_of_range : ∃ c : Cfg Site Mem Op Ret, (obj 0).Reach Cond.free Initialised c ∧
    c.mem.tail = adjust (msgSize + 64) ∧ msgSize < c.mem.tail := by
  obtain ⟨c, hreach, htail⟩ := Obj.Reach.of_any initialised_reach wrapDuring_run
  exact ⟨c, hreach, htail, by rw [htail]; decide⟩

end ShmPcc.MsgQueue
