import ShmPcc.Ref.MsgQueue

/-!
# The message ring as a FIFO

`Rep` ties the two pointers and the bytes to the messages that lie in the ring:
from `head` on the ring holds them one after another, `tail` is where they end,
and they take less than the whole ring. The last clause is what makes
`head == tail` mean "empty", and it is the one thing `enqueue_msg` does not
establish: its check admits a message that fills the ring to the last byte.

Under the restriction that no enqueue does, every sequence of calls answers as
a list of messages does.
-/

namespace ShmPcc.MsgQueue

/-! ## Sizes -/

theorem msgSize_pos : 0 < msgSize := by decide

theorem msgSize_line : msgSize % 64 = 0 := by decide

theorem msgSize_lt : msgSize < 2 ^ 31 := by decide

theorem and_line {y : Nat} (hy : y < 2 ^ 64) : y &&& (2 ^ 64 - 64) = y / 64 * 64 := by
  have hmask : 2 ^ 64 - 64 = (2 ^ 58 - 1) <<< 6 := by decide
  have hdiv : y / 64 * 64 = (y >>> 6) <<< 6 := by
    rw [Nat.shiftRight_eq_div_pow, Nat.shiftLeft_eq]
  rw [hmask, hdiv]
  refine Nat.eq_of_testBit_eq fun i => ?_
  rw [Nat.testBit_and, Nat.testBit_shiftLeft, Nat.testBit_shiftLeft, Nat.testBit_shiftRight,
    Nat.testBit_two_pow_sub_one]
  by_cases h6 : 6 ≤ i
  · have hback : 6 + (i - 6) = i := by omega
    by_cases h64 : i < 64
    · simp [h6, hback, show i - 6 < 58 by omega]
    · have hbit : y.testBit i = false :=
        Nat.testBit_lt_two_pow (lt_of_lt_of_le hy (Nat.pow_le_pow_right (by decide) (by omega)))
      simp [h6, hback, hbit]
  · simp [h6]

theorem alignToCacheLine_toNat (n : UInt64) :
    (alignToCacheLine n).toNat = (n.toNat + 63) % 2 ^ 64 / 64 * 64 := by
  have hmask : (~~~(UInt64.ofNat cacheLineSize - 1)).toNat = 2 ^ 64 - 64 := by decide
  have hsum : (n + UInt64.ofNat cacheLineSize - 1).toNat = (n.toNat + 63) % 2 ^ 64 := by
    have h64 : (UInt64.ofNat cacheLineSize).toNat = 64 := by decide
    have h1 : (1 : UInt64).toNat = 1 := by decide
    rw [UInt64.toNat_sub, UInt64.toNat_add, h64, h1]
    omega
  rw [alignToCacheLine, UInt64.toNat_and, hmask, hsum, and_line (Nat.mod_lt _ (by decide))]

theorem align_line (n : UInt64) : (alignToCacheLine n).toNat % 64 = 0 := by
  rw [alignToCacheLine_toNat]
  exact Nat.mul_mod_left ..

theorem totalSize_line (node : Nat → UInt8) : totalSize node % 64 = 0 := align_line _

variable {node : Nat → UInt8}

/-- A length that does not run over the end of `size_t` when it is rounded up
takes at least a line. -/
theorem totalSize_pos (h1 : 1 ≤ (length node).toNat) (h2 : (length node).toNat ≤ 2 ^ 64 - 64) :
    0 < totalSize node := by
  rw [totalSize, alignToCacheLine_toNat]
  omega

theorem toInt_eq {x : Int} (h0 : 0 ≤ x) (h1 : x ≤ msgSize) : toInt x = x := by
  have := msgSize_lt
  rw [toInt, Int.bmod_eq_of_le] <;> omega

theorem toSizeT_eq {x : Int} (h0 : 0 ≤ x) (h1 : x ≤ msgSize) : toSizeT x = x.toNat := by
  have := msgSize_lt
  rw [toSizeT, Int.emod_eq_of_lt h0 (by omega)]

theorem spaceAtEnd_eq {p : Nat} (h : p ≤ msgSize) : toSizeT ((msgSize : Int) - p) = msgSize - p := by
  rw [toSizeT_eq (by omega) (by omega)]
  omega

theorem adjust_eq {p : Nat} (h : p ≤ msgSize) : adjust p = p % msgSize := by
  rw [adjust]
  split
  · next hp => rw [hp, Nat.mod_self]
  · rw [Nat.mod_eq_of_lt (by omega)]

theorem adjust_wrap {p size : Nat} (hp : p < msgSize) (hsize : size ≤ msgSize)
    (h : msgSize - p < size) : adjust (size - (msgSize - p)) = (p + size) % msgSize := by
  rw [adjust_eq (by omega), ← Nat.add_mod_right]
  exact congrArg (· % msgSize) (by omega)

/-! ## Messages in the ring -/

theorem readSizeT_congr {f g : Nat → UInt8} {i j : Nat} (h : ∀ k < 8, f (i + k) = g (j + k)) :
    readSizeT f i = readSizeT g j := by
  have hfold : ∀ ks : List Nat, (∀ k ∈ ks, k < 8) →
      ks.foldr (fun k acc => (f (i + k)).toUInt64 + acc * 256) 0 =
        ks.foldr (fun k acc => (g (j + k)).toUInt64 + acc * 256) 0 := by
    intro ks
    induction ks with
    | nil => exact fun _ => rfl
    | cons k ks ih =>
      intro hk
      rw [List.foldr_cons, List.foldr_cons, h k (hk k (by simp)),
        ih fun k' hk' => hk k' (by simp [hk'])]
  exact hfold _ fun k hk => List.mem_range.mp hk

/-- A message starts with the length that its size comes from. -/
def Framed (x : List UInt8) : Prop :=
  0 < x.length ∧ x.length = (alignToCacheLine (readSizeT (fun i => x.getD i 0) 0)).toNat

variable {x : List UInt8}

theorem Framed.line (h : Framed x) : x.length % 64 = 0 := by
  rw [h.2]
  exact align_line _

theorem Framed.le (h : Framed x) : 64 ≤ x.length := by
  have := h.line
  have := h.1
  omega

theorem content_length (node : Nat → UInt8) : (content node).length = totalSize node := by
  simp [content, slice]

theorem content_framed (h : 0 < totalSize node) : Framed (content node) := by
  refine ⟨by rwa [content_length], ?_⟩
  have hline := totalSize_line node
  rw [content_length]
  refine congrArg (fun n => (alignToCacheLine n).toNat) (readSizeT_congr fun k hk => ?_)
  have hk' : k < totalSize node := by omega
  simp [content, slice, List.getD_eq_getElem?_getD, hk']

theorem flatten_line {xs : List (List UInt8)} (h : ∀ x ∈ xs, Framed x) :
    xs.flatten.length % 64 = 0 := by
  induction xs with
  | nil => rfl
  | cons x xs ih =>
    have h1 := (h x (.head _)).line
    have h2 := ih fun y hy => h y (.tail _ hy)
    rw [List.flatten_cons, List.length_append]
    omega

/-- What `get_remain_space` answers when nothing moves. -/
def Mem.remainSpace (m : Mem) : Nat :=
  if m.head ≤ m.tail then msgSize - (m.tail - m.head) else m.head - m.tail

/-- The pointers and the bytes of the ring, with the messages that lie in it. -/
structure Rep (m : Mem) : Prop where
  head_lt : m.head < msgSize
  head_line : m.head % 64 = 0
  used_lt : m.used < msgSize
  tail_eq : m.tail = (m.head + m.used) % msgSize
  holds : RingHolds msgSize m.msg m.head m.pending.flatten
  framed : ∀ x ∈ m.pending, Framed x

namespace Rep

variable {m : Mem}

theorem initMsgQueue (msg : Nat → UInt8) : Rep (Mem.initMsgQueue msg) where
  head_lt := msgSize_pos
  head_line := rfl
  used_lt := msgSize_pos
  tail_eq := rfl
  holds := .nil
  framed := by simp [Mem.initMsgQueue]

theorem used_line (h : Rep m) : m.used % 64 = 0 := flatten_line h.framed

theorem tail_lt (h : Rep m) : m.tail < msgSize := by
  rw [h.tail_eq]
  exact Nat.mod_lt _ msgSize_pos

theorem tail_cases (h : Rep m) : m.head ≤ m.tail ∧ m.tail = m.head + m.used ∨
      m.tail < m.head ∧ m.tail + msgSize = m.head + m.used := by
  have h1 := h.head_lt
  have h2 := h.used_lt
  have h3 := h.tail_eq
  by_cases hlt : m.head + m.used < msgSize
  · rw [Nat.mod_eq_of_lt hlt] at h3
    omega
  · rw [Nat.mod_eq_sub_mod (by omega), Nat.mod_eq_of_lt (by omega)] at h3
    omega

theorem tail_line (h : Rep m) : m.tail % 64 = 0 := by
  have h1 := h.head_line
  have h2 := h.used_line
  have h3 := msgSize_line
  rcases h.tail_cases with ⟨_, ht⟩ | ⟨_, ht⟩ <;> omega

theorem empty_iff (h : Rep m) : m.head = m.tail ↔ m.pending = [] := by
  have hused : m.head = m.tail ↔ m.used = 0 := by
    have h1 := h.used_lt
    have h2 := h.head_lt
    rcases h.tail_cases with ⟨_, ht⟩ | ⟨_, ht⟩ <;> omega
  rw [hused, Mem.used, List.length_eq_zero_iff, List.flatten_eq_nil_iff]
  constructor
  · intro hall
    refine List.eq_nil_iff_forall_not_mem.mpr fun x hx => ?_
    have := (h.framed x hx).1
    rw [hall x hx] at this
    exact absurd this (by decide)
  · intro hnil x hx
    rw [hnil] at hx
    cases hx

theorem free_eq (h : Rep m) : m.free = m.remainSpace := by
  have := h.used_lt
  rw [Mem.free, Mem.remainSpace]
  rcases h.tail_cases with ⟨hle, ht⟩ | ⟨hlt, ht⟩
  · rw [if_pos hle]
    omega
  · rw [if_neg (by omega)]
    omega

theorem scribble (h : Rep m) {f : Nat → UInt8}
    (hf : RingHolds msgSize f m.head m.pending.flatten) : Rep { m with msg := f } :=
  { h with holds := hf }

/-- Bytes behind the last message may be overwritten: `k` of the free bytes are
passed over, `size` are written. -/
theorem overwrite (h : Rep m) (src : Nat → UInt8) (s size k : Nat) {q : Nat}
    (hq : q = (m.tail + k) % msgSize) (hroom : k + size ≤ m.free) (hend : q + size ≤ msgSize) :
    Rep { m with msg := overwrite m.msg q src s size } := by
  have hused := h.used_lt
  refine h.scribble (h.holds.overwrite_of_behind (k := m.used + k) ?_ ?_ ?_ hend)
  · rw [hq, h.tail_eq, Nat.mod_add_mod, Nat.add_assoc]
  · exact Nat.le_add_right ..
  · rw [Mem.free] at hroom
    omega

theorem push (h : Rep m) {node : Nat → UInt8} {t : Nat}
    (hfree : totalSize node < m.free) (ht : t = (m.tail + totalSize node) % msgSize)
    (hold : RingHolds msgSize m.msg m.tail (content node)) :
    Rep { m with tail := t, pending := m.push node } := by
  have hused := h.used_lt
  rw [Mem.free] at hfree
  by_cases h0 : totalSize node = 0
  · have hp : m.push node = m.pending := if_pos h0
    rw [hp]
    refine { h with tail_eq := ?_ }
    rw [ht, h0, Nat.add_zero, h.tail_eq, Nat.mod_mod]
    rfl
  · have hp : m.push node = m.pending ++ [content node] := if_neg h0
    have hlen : (m.push node).flatten.length = m.used + totalSize node := by
      rw [hp, List.flatten_append, List.length_append, List.flatten_singleton, content_length]
      rfl
    refine { h with used_lt := ?_, tail_eq := ?_, holds := ?_, framed := ?_ }
    · show (m.push node).flatten.length < msgSize
      omega
    · show t = (m.head + (m.push node).flatten.length) % msgSize
      rw [hlen, ht, h.tail_eq, Nat.mod_add_mod, Nat.add_assoc]
    · show RingHolds msgSize m.msg m.head (m.push node).flatten
      rw [hp, List.flatten_append, List.flatten_singleton, RingHolds.append_iff]
      refine ⟨h.holds, ?_⟩
      rw [← RingHolds.mod_iff, ← Mem.used, ← h.tail_eq]
      exact hold
    · intro x hx
      have hx : x ∈ m.push node := hx
      rw [hp] at hx
      rcases List.mem_append.mp hx with hx | hx
      · exact h.framed x hx
      · rw [List.mem_singleton.mp hx]
        exact content_framed (Nat.pos_of_ne_zero h0)

/-- Messages begin at cache lines, and so does the end of the ring. -/
theorem header (h : Rep m) {l r : List (List UInt8)} {x : List UInt8}
    (hp : m.pending = l ++ x :: r) :
    (m.head + l.flatten.length) % msgSize + sizeofHeader ≤ msgSize ∧
      slice m.msg ((m.head + l.flatten.length) % msgSize) sizeofHeader = x.take sizeofHeader := by
  have hframed := h.framed
  have hold := h.holds
  rw [hp] at hframed hold
  have hx : Framed x := hframed x (by simp)
  have hline : (m.head + l.flatten.length) % msgSize % 64 = 0 := by
    have h1 := flatten_line fun y hy => hframed y (List.mem_append_left _ hy)
    have h2 := h.head_line
    rw [Nat.mod_mod_of_dvd _ (Nat.dvd_of_mod_eq_zero msgSize_line)]
    omega
  have hend : (m.head + l.flatten.length) % msgSize + sizeofHeader ≤ msgSize := by
    have h1 := Nat.mod_lt (m.head + l.flatten.length) msgSize_pos
    have h2 := msgSize_line
    rw [sizeofHeader]
    omega
  have hlen : (x.take sizeofHeader).length = sizeofHeader :=
    List.length_take_of_le (Nat.le_trans (by decide) hx.le)
  rw [List.flatten_append, List.flatten_cons, RingHolds.append_iff] at hold
  have hmine := RingHolds.mod_iff.mpr hold.2
  rw [← List.take_append_drop sizeofHeader x, List.append_assoc, RingHolds.append_iff] at hmine
  have hslice := hmine.1.slice_eq (by rw [hlen]; exact hend)
  rw [hlen] at hslice
  exact ⟨hend, hslice⟩

section Pop

variable {x : List UInt8} {rest : List (List UInt8)}

theorem used_cons (hp : m.pending = x :: rest) : m.used = x.length + rest.flatten.length := by
  rw [Mem.used, hp, List.flatten_cons, List.length_append]

theorem total_eq (h : Rep m) (hp : m.pending = x :: rest) :
    (alignToCacheLine (readSizeT m.msg m.head)).toNat = x.length := by
  have hx : Framed x := h.framed x (by rw [hp]; simp)
  have hle := hx.le
  have hline := h.head_line
  have hlt := h.head_lt
  have hsize := msgSize_line
  have hold := h.holds
  rw [hp, List.flatten_cons, RingHolds.append_iff] at hold
  rw [hx.2]
  refine congrArg (fun n => (alignToCacheLine n).toNat) (readSizeT_congr fun k hk => ?_)
  -- the header does not run over the end: both lie on cache lines
  have := hold.1 k (x.getD k 0) (by simp [show k < x.length by omega])
  rw [Nat.mod_eq_of_lt (by omega)] at this
  rw [this, Nat.zero_add]

theorem pop (h : Rep m) (hp : m.pending = x :: rest) {t : Nat}
    (ht : t = (m.head + x.length) % msgSize) :
    Rep { m with head := t, pending := m.pending.tail } := by
  have hx : Framed x := h.framed x (by rw [hp]; simp)
  have hused := h.used_lt
  rw [used_cons hp] at hused
  have hold := h.holds
  rw [hp, List.flatten_cons, RingHolds.append_iff] at hold
  have hline : t % 64 = 0 := by
    rw [ht, Nat.mod_mod_of_dvd _ (Nat.dvd_of_mod_eq_zero msgSize_line), Nat.add_mod, h.head_line,
      hx.line]
  rw [hp, List.tail_cons]
  exact
    { head_lt := ht ▸ Nat.mod_lt _ msgSize_pos
      head_line := hline
      used_lt := by
        show rest.flatten.length < msgSize
        omega
      tail_eq := by
        show m.tail = (t + rest.flatten.length) % msgSize
        rw [ht, Nat.mod_add_mod, h.tail_eq, used_cons hp, Nat.add_assoc]
      holds := by
        show RingHolds msgSize m.msg t rest.flatten
        rw [ht, RingHolds.mod_iff]
        exact hold.2
      framed := fun y hy => h.framed y (by rw [hp]; exact List.mem_cons_of_mem _ hy) }

end Pop

end Rep

/-! ## Copying a message behind the last one -/

section Copy

variable {f : Nat → UInt8} {node : Nat → UInt8} {t : Nat}

theorem holds_whole (h : totalSize node ≤ msgSize - t) (ht : t ≤ msgSize) :
    RingHolds msgSize (overwrite f t node 0 (totalSize node)) t (content node) :=
  RingHolds.overwrite_self (by omega)

theorem holds_first (ht : t ≤ msgSize) :
    RingHolds msgSize (overwrite f t node 0 (msgSize - t)) t (slice node 0 (msgSize - t)) :=
  RingHolds.overwrite_self (by omega)

/-- The rest goes to the start of the ring, where it does not meet the first
part. -/
theorem holds_rest (ht : t < msgSize) (h : msgSize - t < totalSize node)
    (hle : totalSize node ≤ msgSize)
    (hf : RingHolds msgSize f t (slice node 0 (msgSize - t))) :
    RingHolds msgSize (overwrite f 0 node (msgSize - t) (totalSize node - (msgSize - t))) t
      (content node) := by
  have hlen : (slice node 0 (msgSize - t)).length = msgSize - t := by simp [slice]
  have hend : t + (msgSize - t) = msgSize := by omega
  have hsplit : totalSize node = (msgSize - t) + (totalSize node - (msgSize - t)) := by omega
  rw [content, hsplit, slice_add, RingHolds.append_iff, hlen, hend, ← hsplit, Nat.zero_add]
  constructor
  · refine hf.overwrite_of_behind (k := msgSize - t) ?_ (by omega) (by omega) (by omega)
    rw [hend, Nat.mod_self]
  · rw [← RingHolds.mod_iff, Nat.mod_self]
    exact RingHolds.overwrite_self (by omega)

end Copy

/-! ## Calls one after another -/

open Prog

variable {m : Mem}

theorem getRemainSpace_runs (h : Rep m) :
    getRemainSpace.runs (fun r m' => r = (m.free : Int) ∧ m' = m) m := by
  have hfree := h.free_eq
  rw [Mem.remainSpace] at hfree
  have htail := h.tail_lt
  have hhead := h.head_lt
  simp only [getRemainSpace, runs_bind, runs_read]
  split
  · next hle =>
    rw [if_pos hle] at hfree
    refine ⟨?_, rfl⟩
    show toInt ((msgSize : Int) - ((m.tail : Int) - m.head)) = m.free
    rw [toInt_eq (by omega) (by omega)]
    omega
  · next hlt =>
    rw [if_neg hlt] at hfree
    refine ⟨?_, rfl⟩
    show toInt ((m.head : Int) - m.tail) = m.free
    rw [toInt_eq (by omega) (by omega)]
    omega

/-- The assertions of the copies hold on cache lines. -/
theorem memcpyNtWrite_eq {l : Site} {dst s size : Nat} {src : Nat → UInt8}
    (h1 : size % 64 = 0) (h2 : dst % 64 = 0) (h3 : s % 64 = 0) :
    memcpyNtWrite l dst src s size =
      write l fun m => { m with msg := overwrite m.msg dst src s size } := by
  rw [memcpyNtWrite, assert, if_pos (decide_eq_true (by omega)), ret_bind]

theorem memcpyNtRead_eq {l : Site} {dst src size : Nat}
    (h1 : size % 64 = 0) (h2 : dst % 64 = 0) (h3 : src % 64 = 0) :
    memcpyNtRead l dst src size = read l fun m => slice m.msg src size := by
  rw [memcpyNtRead, assert, if_pos (decide_eq_true (by omega)), ret_bind]

theorem putMsg_runs (h : Rep m) (hlt : totalSize node < m.free) :
    (putMsg node m.tail).runs (fun r m' => r = 0 ∧ Rep m' ∧ m'.pending = m.push node) m := by
  have hfree : m.free ≤ msgSize := Nat.sub_le ..
  have htail := h.tail_lt
  have hline := h.tail_line
  have htotal := totalSize_line node
  have hsize := msgSize_line
  simp only [putMsg, spaceAtEnd_eq htail.le]
  split
  · next hfit =>
    rw [memcpyNtWrite_eq htotal hline rfl]
    have h1 := h.overwrite node 0 (totalSize node) 0
      (Nat.mod_eq_of_lt htail).symm (by omega) (by omega)
    refine ⟨rfl, h1.push hlt ?_ (holds_whole hfit htail.le), rfl⟩
    exact adjust_eq (by omega)
  · next hsplit =>
    have hq : 0 = (m.tail + (msgSize - m.tail)) % msgSize := by
      rw [Nat.add_sub_cancel' htail.le, Nat.mod_self]
    rw [memcpyNtWrite_eq (by omega) hline rfl, memcpyNtWrite_eq (by omega) rfl (by omega)]
    have h1 := h.overwrite node 0 (msgSize - m.tail) 0
      (Nat.mod_eq_of_lt htail).symm (by omega) (by omega)
    have h2 := h1.overwrite node (msgSize - m.tail) (totalSize node - (msgSize - m.tail))
      (msgSize - m.tail) hq (by show _ ≤ m.free; omega) (by omega)
    refine ⟨rfl, h2.push hlt ?_ (holds_rest htail (by omega) (by omega) (holds_first htail.le)),
      rfl⟩
    exact adjust_wrap htail (by omega) (by omega)

theorem enqueueMsg_runs (h : Rep m) (hlt : totalSize node < m.free) :
    (enqueueMsg node).runs (fun r m' => r = 0 ∧ Rep m' ∧ m'.pending = m.push node) m := by
  have hfree : m.free ≤ msgSize := Nat.sub_le ..
  rw [enqueueMsg, runs_bind]
  refine runs_mono ?_ (getRemainSpace_runs h)
  rintro r m' ⟨rfl, rfl⟩
  have hr : toSizeT (m'.free : Int) = m'.free := by
    rw [toSizeT_eq (by omega) (by omega), Int.toNat_natCast]
  simp only [runs_bind, runs_rmw, hr, Mem.check, if_pos hlt.le, if_neg (Nat.not_lt.mpr hlt.le)]
  have h' : Rep { m' with passed := m'.passed ++ [(totalSize node, m'.free)] } := { h with }
  exact putMsg_runs h' hlt

theorem takeMsg_runs {rest : List (List UInt8)} (h : Rep m) (hp : m.pending = x :: rest) :
    takeMsg.runs (fun r m' => r = x ∧ Rep m' ∧ m'.pending = rest) m := by
  have hx : Framed x := h.framed x (by rw [hp]; simp)
  have hhead := h.head_lt
  have hline := h.head_line
  have hxline := hx.line
  have hsize := msgSize_line
  have hused := h.used_lt
  rw [Rep.used_cons hp] at hused
  have hold := h.holds
  rw [hp, List.flatten_cons, RingHolds.append_iff] at hold
  have htail : m.pending.tail = rest := by rw [hp, List.tail_cons]
  simp only [takeMsg, runs_bind, runs_read, h.total_eq hp, spaceAtEnd_eq hhead.le]
  split
  · next hfit =>
    rw [memcpyNtRead_eq hxline rfl hline]
    refine ⟨hold.1.slice_eq (by omega), h.pop hp ?_, htail⟩
    exact adjust_eq (by omega)
  · next hsplit =>
    rw [memcpyNtRead_eq (by omega) rfl hline, memcpyNtRead_eq (by omega) (by omega) rfl]
    refine ⟨hold.1.slice_append hhead.le (by omega) (by omega), h.pop hp ?_, htail⟩
    exact adjust_wrap hhead (by omega) (by omega)

theorem isQueueEmpty_runs (h : Rep m) :
    isQueueEmpty.runs (fun r m' => r = m.pending.isEmpty ∧ m' = m) m := by
  refine ⟨?_, rfl⟩
  show (m.head == m.tail) = m.pending.isEmpty
  rw [Bool.eq_iff_iff, beq_iff_eq, h.empty_iff, List.isEmpty_iff]

theorem dequeueMsg_runs {retries : Nat} (h : Rep m) : (dequeueMsg retries false).runs
      (fun r m' => r = m.pending.head? ∧ Rep m' ∧ m'.pending = m.pending.tail) m := by
  simp only [dequeueMsg, Bool.false_eq_true, if_false, runs_bind]
  refine runs_mono ?_ (isQueueEmpty_runs h)
  rintro r m' ⟨rfl, rfl⟩
  cases hp : m'.pending with
  | nil => exact ⟨rfl, h, hp⟩
  | cons x rest =>
    rw [List.isEmpty_cons, if_neg Bool.false_ne_true, runs_bind]
    refine runs_mono ?_ (takeMsg_runs h hp)
    rintro r m'' ⟨rfl, h', hp'⟩
    exact ⟨rfl, h', hp'⟩

/-! ## The queue as a list -/

/-- One call on a list of messages. -/
def Op.onList : Op → List (List UInt8) → Ret × List (List UInt8)
  | .enqueueMsg node, q => (.done 0, q ++ [content node])
  | .dequeueMsg _, q => (.msg q.head?, q.tail)
  | .isQueueEmpty, q => (.empty q.isEmpty, q)

/-- The answers of calls on a list of messages. -/
def onList : List Op → List (List UInt8) → List Ret
  | [], _ => []
  | op :: ops, q => (op.onList q).1 :: onList ops (op.onList q).2

/-- What a call asks of the queue it is made on: `dequeue_msg` is called with
`0`, a message has a length that can be rounded up, and it takes less than the
remaining space. -/
def Roomy (_ : Nat) (op : Op) (m : Mem) : Prop :=
  match op with
  | .enqueueMsg node =>
    1 ≤ (length node).toNat ∧ (length node).toNat ≤ 2 ^ 64 - 64 ∧
      totalSize node < m.remainSpace
  | .dequeueMsg blocking => blocking = false
  | .isQueueEmpty => True

instance (t : Nat) (op : Op) (m : Mem) : Decidable (Roomy t op m) :=
  match op with
  | .enqueueMsg _ => inferInstanceAs (Decidable (_ ∧ _ ∧ _))
  | .dequeueMsg _ => inferInstanceAs (Decidable (_ = _))
  | .isQueueEmpty => .isTrue trivial

theorem exec_onList (retries : Nat) {op : Op} (h : Rep m) (hr : Roomy op.thread op m) :
    ∃ m', (obj retries).exec op.thread op m = some ((op.onList m.pending).1, m') ∧ Rep m' ∧
      m'.pending = (op.onList m.pending).2 := by
  have he : (obj retries).enter op.thread op m = some m := if_pos rfl
  suffices hcode : (code retries op).runs
      (fun r m' => r = (op.onList m.pending).1 ∧ Rep m' ∧ m'.pending = (op.onList m.pending).2) m by
    obtain ⟨r, m', hx, rfl, hm'⟩ := Obj.exec_of_runs he hcode
    exact ⟨m', hx, hm'⟩
  cases op with
  | enqueueMsg node =>
    obtain ⟨h1, h2, h3⟩ := hr
    rw [code, runs_bind]
    refine runs_mono ?_ (enqueueMsg_runs h (h.free_eq ▸ h3))
    rintro r m' ⟨rfl, h', hp⟩
    exact ⟨rfl, h', hp.trans (if_neg (totalSize_pos h1 h2).ne')⟩
  | dequeueMsg blocking =>
    cases hr
    rw [code, runs_bind]
    refine runs_mono ?_ (dequeueMsg_runs h)
    rintro r m' ⟨rfl, h', hp⟩
    exact ⟨rfl, h', hp⟩
  | isQueueEmpty =>
    rw [code, runs_bind]
    refine runs_mono ?_ (isQueueEmpty_runs h)
    rintro r m' ⟨rfl, rfl⟩
    exact ⟨rfl, h, rfl⟩

/-- Calls made one after another, each by the thread that makes such calls. -/
def calls (ops : List Op) : List (Nat × Op) := ops.map fun op => (op.thread, op)

theorem execAll_onList {retries : Nat} : ∀ {ops : List Op} {m : Mem}, Rep m →
    (obj retries).Along Roomy (calls ops) m →
    ∃ m', (obj retries).execAll (calls ops) m = some (onList ops m.pending, m') := by
  intro ops
  induction ops with
  | nil => exact fun {m} _ _ => ⟨m, rfl⟩
  | cons op ops ih =>
    intro m h halong
    obtain ⟨m₁, hx, h₁, hp₁⟩ := exec_onList retries h halong.1
    obtain ⟨m', hrest⟩ := ih h₁ (halong.2 _ hx)
    rw [hp₁] at hrest
    exact ⟨m', Obj.execAll_cons hx hrest⟩

/-- Every sequence of calls on an initialised queue, in which each enqueue
finds more room than it takes, answers as the list of messages does. -/
theorem answers_as_fifo {retries : Nat} (msg : Nat → UInt8) (ops : List Op)
    (h : (obj retries).Along Roomy (calls ops) (Mem.initMsgQueue msg)) :
    ∃ m, (obj retries).execAll (calls ops) (Mem.initMsgQueue msg) = some (onList ops [], m) :=
  execAll_onList (Rep.initMsgQueue msg) h

/-- A message of `len` bytes, all `fill` behind its length. -/
def plainMsg (len : Nat) (fill : UInt8) (i : Nat) : UInt8 :=
  if i < 8 then UInt8.ofNat (len / 256 ^ i) else fill

/-- Two messages in, one out, one in, three out. -/
def smallTraffic : List Op :=
  [.enqueueMsg (plainMsg 70 1), .enqueueMsg (plainMsg 24 2), .dequeueMsg false,
    .enqueueMsg (plainMsg 64 3), .dequeueMsg false, .isQueueEmpty, .dequeueMsg false,
    .dequeueMsg false, .isQueueEmpty]

theorem smallTraffic_roomy :
    (obj 0).Along Roomy (calls smallTraffic) (Mem.initMsgQueue fun _ => 0) := by
  decide +kernel

theorem answers_as_fifo_smallTraffic :
    (obj 0).Along Roomy (calls smallTraffic) (Mem.initMsgQueue fun _ => 0) ∧
    ∃ m, (obj 0).execAll (calls smallTraffic) (Mem.initMsgQueue fun _ => 0) =
      some ([.done 0, .done 0, .msg (some (content (plainMsg 70 1))), .done 0,
        .msg (some (content (plainMsg 24 2))), .empty false,
        .msg (some (content (plainMsg 64 3))), .msg none, .empty true], m) :=
  ⟨smallTraffic_roomy, answers_as_fifo _ _ smallTraffic_roomy⟩

/-- A message that fills the ring to the last byte passes the space check, and
the queue looks empty with it: the dequeue behind it finds nothing. -/
theorem full_ring_looks_empty :
    ((obj 0).execAll (calls [.enqueueMsg (plainMsg msgSize 1), .dequeueMsg false, .isQueueEmpty])
      (Mem.initMsgQueue fun _ => 0)).any
        (fun x => x.1 = [.done 0, .msg none, .empty true]) = true ∧
    1 ≤ (length (plainMsg msgSize 1)).toNat ∧
    onList [.enqueueMsg (plainMsg msgSize 1), .dequeueMsg false, .isQueueEmpty] [] =
      [.done 0, .msg (some (content (plainMsg msgSize 1))), .empty true] := by
  refine ⟨by decide +kernel, by decide +kernel, rfl⟩

/-! ## The content behind the header -/

/-- The content of a node that a sender has filled, `length` bytes of it. -/
def payload (node : Nat → UInt8) : List UInt8 := slice node sizeofHeader (length node).toNat

/-- The content that the handler has of a node, up to its `length`. -/
def handed (result : List UInt8) : List UInt8 :=
  (result.drop sizeofHeader).take (length fun i => result.getD i 0).toNat

/-- The bytes the queue copies reach to the end of the content. -/
def Whole (node : Nat → UInt8) : Prop := sizeofHeader + (length node).toNat ≤ totalSize node

def Op.sent : Op → Option (List UInt8)
  | .enqueueMsg node => some (payload node)
  | _ => none

def Ret.delivered : Ret → Option (List UInt8)
  | .msg (some result) => some (handed result)
  | _ => none

theorem handed_content (h : Whole node) : handed (content node) = payload node := by
  have hlength : length (fun i => (content node).getD i 0) = length node := by
    refine readSizeT_congr fun k hk => ?_
    have hk' : k < totalSize node := by
      rw [Whole, sizeofHeader] at h
      omega
    simp [content, slice, List.getD_eq_getElem?_getD, hk']
  obtain ⟨rest, hrest⟩ := Nat.exists_eq_add_of_le h
  have hheader : (slice node 0 sizeofHeader).length = sizeofHeader := by simp [slice]
  have hpayload : (payload node).length = (length node).toNat := by simp [payload, slice]
  have hcontent : content node = slice node 0 sizeofHeader ++ (payload node ++
      slice node (sizeofHeader + (length node).toNat) rest) := by
    rw [content, hrest, slice_add, slice_add, Nat.zero_add, Nat.zero_add, List.append_assoc, payload]
  rw [handed, hlength, hcontent, List.drop_left' hheader, List.take_left' hpayload]

/-- What a list of messages hands out is what is in it and then what is put in. -/
theorem onList_delivers : ∀ (ops : List Op) (q : List (List UInt8)),
    (∀ node, .enqueueMsg node ∈ ops → Whole node) →
    (onList ops q).filterMap Ret.delivered <+: q.map handed ++ ops.filterMap Op.sent := by
  intro ops
  induction ops with
  | nil => exact fun q _ => List.nil_prefix
  | cons op ops ih =>
    intro q h
    have hrest := ih (op.onList q).2 fun node hn => h node (List.mem_cons_of_mem op hn)
    cases op with
    | enqueueMsg node =>
      have hnode := handed_content (h node List.mem_cons_self)
      simpa [onList, Op.onList, Op.sent, Ret.delivered, List.filterMap_cons, hnode] using hrest
    | dequeueMsg blocking =>
      cases q with
      | nil => simpa [onList, Op.onList, Op.sent, Ret.delivered, List.filterMap_cons] using hrest
      | cons x q => simpa [onList, Op.onList, Op.sent, Ret.delivered, List.filterMap_cons] using hrest
    | isQueueEmpty => simpa [onList, Op.onList, Op.sent, Ret.delivered, List.filterMap_cons] using hrest

end ShmPcc.MsgQueue
