import ShmPcc.Ref.ClevelHash

/-!
# Words, indices and slots of `clevel_hash`

What the proofs about the table use of its arithmetic: a slot word gives back
the address and the hash bits it was made from, the two buckets of a key are
two different buckets of the level, and capacities double from level to level.

`entryAt m q` is the item in slot `q`, and `Placed` says when a slot's word is
where lookups look for it: its entry is there, the hash bits are those of the
entry's key, and the bucket is one of the key's two. Nothing here is about
threads.
-/

namespace ShmPcc.ClevelHash

variable {K T : Type}

/-! ## Words -/

theorem mask_eq : 0xFFFFFFFFFFFF#64 = (BitVec.allOnes 48).setWidth 64 := by decide

theorem getLsbD_addr (p : Word) (i : Nat) :
    (addr p).getLsbD i = (p.getLsbD i && decide (i < 48)) := by
  rw [addr, mask_eq, BitVec.getLsbD_and, BitVec.getLsbD_setWidth, BitVec.getLsbD_allOnes]
  by_cases hi : i < 48
  · simp [hi, show i < 64 by omega]
  · simp [hi]

@[simp] theorem addr_zero : addr 0 = 0 := by decide

theorem addr_addr (p : Word) : addr (addr p) = addr p := by
  apply BitVec.eq_of_getLsbD_eq
  intro i hi
  simp only [getLsbD_addr, Bool.and_assoc, Bool.and_self]

theorem getLsbD_setPartial (p : Word) (par : BitVec 16) (i : Nat) : (setPartial p par).getLsbD i =
      (p.getLsbD i && decide (i < 48) || decide (i < 64) && !decide (i < 48) &&
        par.getLsbD (i - 48)) := by
  rw [setPartial, BitVec.getLsbD_or, show p &&& 0xFFFFFFFFFFFF#64 = addr p from rfl, getLsbD_addr,
    BitVec.getLsbD_shiftLeft, BitVec.getLsbD_setWidth]
  by_cases hi : i < 64
  · simp [hi, show i - 48 < 64 by omega]
  · simp [hi]

theorem addr_setPartial {a : Word} (ha : addr a = a) (par : BitVec 16) :
    addr (setPartial a par) = a := by
  apply BitVec.eq_of_getLsbD_eq
  intro i hi
  have hbit := congrArg (fun x => x.getLsbD i) ha
  simp only [getLsbD_addr] at hbit
  rw [getLsbD_addr, getLsbD_setPartial]
  by_cases h48 : i < 48
  · simp [h48]
  · simp [h48] at hbit ⊢
    exact hbit

theorem partialOf_setPartial (a : Word) (par : BitVec 16) : partialOf (setPartial a par) = par := by
  apply BitVec.eq_of_getLsbD_eq
  intro i hi
  rw [partialOf, BitVec.getLsbD_setWidth, BitVec.getLsbD_ushiftRight, getLsbD_setPartial]
  simp [hi, show 48 + i < 64 by omega, show ¬ 48 + i < 48 by omega]

theorem word_ext {w w' : Word} (ha : addr w = addr w') (hp : partialOf w = partialOf w') :
    w = w' := by
  apply BitVec.eq_of_getLsbD_eq
  intro i hi
  by_cases h48 : i < 48
  · have hbit := congrArg (fun x => x.getLsbD i) ha
    simpa [getLsbD_addr, h48] using hbit
  · have hbit := congrArg (fun x => x.getLsbD (i - 48)) hp
    simp only [partialOf, BitVec.getLsbD_setWidth, BitVec.getLsbD_ushiftRight] at hbit
    simpa [show i - 48 < 16 by omega, show 48 + (i - 48) = i by omega] using hbit

/-! ## Indices -/

/-- The tag goes away when it is taken twice, and the upper half of the buckets is not seen. -/
theorem xor_tag_twice (hv tag : Word) (k : Nat) :
    (BitVec.ofNat 64 ((BitVec.ofNat 64 (hv.toNat % 2 ^ k) ^^^ tag).toNat % 2 ^ k + 2 ^ k) ^^^
      tag).toNat % 2 ^ k = hv.toNat % 2 ^ k := by
  refine Nat.eq_of_testBit_eq fun i => ?_
  by_cases hi : i < k
  · simp only [Nat.testBit_mod_two_pow, BitVec.testBit_toNat, BitVec.getLsbD_xor,
      BitVec.getLsbD_ofNat, Nat.add_comm _ (2 ^ k), Nat.testBit_two_pow_add_gt hi, hi]
    by_cases h64 : i < 64
    · simp [h64]
    · simp [h64, BitVec.getLsbD_of_ge _ i (Nat.not_lt.mp h64)]
  · simp [Nat.testBit_mod_two_pow, hi]

/-- The two buckets of a hash are in the two halves of a level, and `alt_index` leads from
each to the other. -/
theorem altIndex_swaps (hv : Word) (par : BitVec 16) (k : Nat) :
    let capacity := 2 ^ (k + 1)
    let first := firstIndex hv capacity
    let second := secondIndex par first capacity
    first < capacity / 2 ∧ capacity / 2 ≤ second ∧ second < capacity ∧
      altIndex par first capacity = second ∧ altIndex par second capacity = first := by
  intro capacity first second
  have hhalf : capacity / 2 = 2 ^ k := by
    rw [show capacity = 2 ^ k * 2 from Nat.pow_succ .., Nat.mul_div_cancel _ (by decide)]
  have hpos : 0 < capacity / 2 := hhalf ▸ Nat.two_pow_pos k
  have hfirst : first < capacity / 2 := Nat.mod_lt _ hpos
  have hsecond : capacity / 2 ≤ second := Nat.le_add_left ..
  have hlt : second < capacity / 2 + capacity / 2 := Nat.add_lt_add_right (Nat.mod_lt _ hpos) _
  refine ⟨hfirst, hsecond, by omega, if_pos hfirst, ?_⟩
  rw [altIndex, if_neg (Nat.not_lt.mpr hsecond)]
  simp only [second, first, secondIndex, firstIndex, hhalf]
  exact xor_tag_twice hv (hashOfTag par) k

namespace Table

variable (H : Table K)

theorem capacity_eq (level : Nat) : H.capacity level = 2 ^ (H.hashpower - 1) * 2 ^ level := by
  induction level with
  | zero => rw [capacity, Nat.pow_zero, Nat.mul_one]
  | succ level ih => rw [capacity, ih, Nat.pow_succ, Nat.mul_assoc]

variable {H}

theorem capacity_ge (hp : 2 ≤ H.hashpower) (level : Nat) : 2 ≤ H.capacity level := by
  induction level with
  | zero =>
    exact Nat.le_self_pow (by omega) 2
  | succ level ih =>
    rw [capacity]
    omega

theorem half_mul_two (hp : 2 ≤ H.hashpower) (level : Nat) :
    H.capacity level / 2 + H.capacity level / 2 = H.capacity level := by
  cases level with
  | zero =>
    rw [capacity, show H.hashpower - 1 = H.hashpower - 2 + 1 by omega, Nat.pow_succ]
    omega
  | succ level =>
    rw [capacity]
    omega

theorem fIdx_lt (hp : 2 ≤ H.hashpower) (key : K) (level : Nat) :
    H.fIdx key level < H.capacity level / 2 := by
  have h := capacity_ge hp level
  exact Nat.mod_lt _ (by omega)

theorem sIdx_ge (key : K) (level : Nat) : H.capacity level / 2 ≤ H.sIdx key level := by
  rw [sIdx, secondIndex]
  omega

theorem sIdx_lt (hp : 2 ≤ H.hashpower) (key : K) (level : Nat) :
    H.sIdx key level < H.capacity level := by
  have h := capacity_ge hp level
  have hhalf := half_mul_two hp level
  have hmod : (BitVec.ofNat 64 (H.fIdx key level) ^^^ hashOfTag (H.par key)).toNat %
      (H.capacity level / 2) < H.capacity level / 2 := Nat.mod_lt _ (by omega)
  rw [sIdx, secondIndex]
  omega

theorem fIdx_ne_sIdx (hp : 2 ≤ H.hashpower) (key : K) (level : Nat) :
    H.fIdx key level ≠ H.sIdx key level := by
  have hf := fIdx_lt hp key level
  have hs := sIdx_ge (H := H) key level
  omega

theorem capacity_lt_succ (hp : 2 ≤ H.hashpower) (level : Nat) :
    H.capacity level < H.capacity level * 2 := by
  have h := capacity_ge hp level
  omega

/-- The buckets in which a key may be. -/
def IsBucket (H : Table K) (key : K) (level bucket : Nat) : Prop :=
  bucket = H.fIdx key level ∨ bucket = H.sIdx key level

theorem IsBucket.lt (hp : 2 ≤ H.hashpower) {key : K} {level bucket : Nat}
    (h : H.IsBucket key level bucket) : bucket < H.capacity level := by
  rcases h with rfl | rfl
  · have hf := fIdx_lt hp key level
    omega
  · exact sIdx_lt hp key level

/-- The slots in which a key may be. -/
def IsSlot (H : Table K) (key : K) (q : Slot) : Prop :=
  H.IsBucket key q.level q.bucket ∧ q.slot < assocNum

end Table

/-! ## Slots -/

/-- The item in a slot. -/
def Mem.entryAt (m : Mem K T) (q : Slot) : Option (K × T) :=
  if addr (m.slots q) = 0 then none else m.entries (addr (m.slots q))

/-- A word in slot `q` that lookups will find there. -/
structure Placed (H : Table K) (entries : Word → Option (K × T)) (q : Slot) (w : Word) : Prop where
  addr_ne : addr w ≠ 0
  entry : ∃ kv, entries (addr w) = some kv ∧ partialOf w = H.par kv.1 ∧ H.IsSlot kv.1 q

/-- Every word in the table is where lookups look for it. -/
def WellPlaced (H : Table K) (m : Mem K T) : Prop :=
  ∀ q, m.slots q ≠ 0 → Placed H m.entries q (m.slots q)

theorem entryAt_of_addr {m : Mem K T} {q : Slot} (h : addr (m.slots q) ≠ 0) :
    m.entryAt q = m.entries (addr (m.slots q)) := if_neg h

theorem entryAt_eq_some {m : Mem K T} {q : Slot} {kv : K × T} :
    m.entryAt q = some kv ↔ addr (m.slots q) ≠ 0 ∧ m.entries (addr (m.slots q)) = some kv := by
  unfold Mem.entryAt
  split
  · next h => exact ⟨fun hc => absurd hc (by simp), fun hc => absurd h hc.1⟩
  · next h => exact ⟨fun hc => ⟨h, hc⟩, fun hc => hc.2⟩

namespace WellPlaced

variable {H : Table K} {m : Mem K T}

theorem addr_eq_zero (h : WellPlaced H m) {q : Slot} : addr (m.slots q) = 0 ↔ m.slots q = 0 := by
  constructor
  · intro ha
    by_contra hne
    exact (h q hne).addr_ne ha
  · intro hz
    rw [hz, addr_zero]

theorem of_entryAt (h : WellPlaced H m) {q : Slot} {kv : K × T} (hq : m.entryAt q = some kv) :
    partialOf (m.slots q) = H.par kv.1 ∧ H.IsSlot kv.1 q ∧ m.slots q ≠ 0 := by
  obtain ⟨ha, he⟩ := entryAt_eq_some.mp hq
  have hne : m.slots q ≠ 0 := fun hz => ha (by rw [hz, addr_zero])
  obtain ⟨kv', he', hpar, hslot⟩ := (h q hne).entry
  rw [he] at he'
  injection he' with he'
  subst he'
  exact ⟨hpar, hslot, hne⟩

theorem entryAt_isSome (h : WellPlaced H m) {q : Slot} (hq : m.slots q ≠ 0) :
    ∃ kv, m.entryAt q = some kv := by
  obtain ⟨kv, he, _⟩ := (h q hq).entry
  exact ⟨kv, entryAt_eq_some.mpr ⟨(h q hq).addr_ne, he⟩⟩

end WellPlaced

section Lookup

variable {H : Table K} {m : Mem K T}

/-- A slot that fails the test of a lookup does not hold the key. -/
theorem entryAt_ne_of_mismatch (hw : WellPlaced H m) {key : K} {q : Slot}
    (h : ¬ (partialOf (m.slots q) = H.par key ∧ addr (m.slots q) ≠ 0)) (v : T) :
    m.entryAt q ≠ some (key, v) := by
  intro hq
  exact h ⟨(hw.of_entryAt hq).1, (entryAt_eq_some.mp hq).1⟩

/-- No slot of the levels from `lo` up to `hi` holds the key. -/
def Mem.Without (m : Mem K T) (key : K) (lo hi : Nat) : Prop :=
  ∀ q v, lo ≤ q.level → q.level ≤ hi → m.entryAt q ≠ some (key, v)

theorem Mem.Without.level (hw : WellPlaced H m) {key : K} {level : Nat}
    (hf : ∀ i v, 0 ≤ i → i < 0 + assocNum → m.entryAt ⟨level, H.fIdx key level, i⟩ ≠ some (key, v))
    (hs : ∀ i v, 0 ≤ i → i < 0 + assocNum → m.entryAt ⟨level, H.sIdx key level, i⟩ ≠ some (key, v)) :
    m.Without key level level := by
  rintro ⟨l, b, i⟩ v hlo hhi hq
  obtain rfl : l = level := Nat.le_antisymm hhi hlo
  obtain ⟨_, ⟨hb, hi⟩, _⟩ := hw.of_entryAt hq
  rcases hb with hb | hb
  · exact hf i v (Nat.zero_le i) (by rw [Nat.zero_add]; exact hi) (by rw [← hb]; exact hq)
  · exact hs i v (Nat.zero_le i) (by rw [Nat.zero_add]; exact hi) (by rw [← hb]; exact hq)

theorem Mem.Without.cons {key : K} {lo hi : Nat} (h : m.Without key lo lo)
    (h' : m.Without key (lo + 1) hi) : m.Without key lo hi := by
  intro q v hlo hhi
  rcases Nat.eq_or_lt_of_le hlo with heq | hlt
  · exact h q v hlo (Nat.le_of_eq heq.symm)
  · exact h' q v hlt hhi

end Lookup

end ShmPcc.ClevelHash
