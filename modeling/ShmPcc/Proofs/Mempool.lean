import ShmPcc.Ref.Mempool
import ShmPcc.Proofs.MsgQueue

/-!
# The message queues do not overlap

Type, source and position are the digits of a number, in the radices `n` and `n - 1`, and a
queue lies as many queue sizes behind `QUEUE_BASE` as this number says. With the square of
`n` below 2^31 nothing on the way to the address wraps around.
-/

namespace ShmPcc.Mempool

open MsgQueue

variable {n src dst src' dst' : Nat} {type type' : MsgType}

/-- The position of `dst` among the queues of `src`, where there is none to `src` itself. -/
def position (src dst : Nat) : Nat := if dst > src then dst - 1 else dst

/-- The number of the queue. -/
def index (n src dst : Nat) (type : MsgType) : Nat :=
  (type.toNat * n + src) * (n - 1) + position src dst

theorem position_lt (hsrc : src < n) (hdst : dst < n) (hne : src ≠ dst) : position src dst < n - 1 := by
  rw [position]
  split <;> omega

theorem position_inj (hne : src ≠ dst) (hne' : src ≠ dst') (h : position src dst = position src dst') :
    dst = dst' := by
  rw [position, position] at h
  split at h <;> split at h <;> omega

theorem MsgType.toNat_lt (type : MsgType) : type.toNat < msgTypeNum := by
  cases type <;> decide

theorem MsgType.toNat_inj (h : type.toNat = type'.toNat) : type = type' := by
  cases type <;> cases type' <;> first | rfl | cases h

/-- A number with two digits determines them. -/
theorem digits_inj {d q r q' r' : Nat} (hr : r < d) (hr' : r' < d) (h : q * d + r = q' * d + r') :
    q = q' ∧ r = r' := by
  have hd : 0 < d := by omega
  have hq : q = q' := by
    have := congrArg (· / d) h
    simpa [Nat.mul_comm _ d, Nat.mul_add_div hd, Nat.div_eq_of_lt hr, Nat.div_eq_of_lt hr'] using this
  subst hq
  exact ⟨rfl, by omega⟩

theorem digits_lt {d q r k : Nat} (hq : q < k) (hr : r < d) : q * d + r < k * d := by
  calc q * d + r < (q + 1) * d := by rw [Nat.succ_mul]; omega
    _ ≤ k * d := Nat.mul_le_mul_right d hq

theorem index_lt (hsrc : src < n) (hdst : dst < n) (hne : src ≠ dst) :
    index n src dst type < msgTypeNum * n * (n - 1) :=
  digits_lt (digits_lt type.toNat_lt hsrc) (position_lt hsrc hdst hne)

theorem index_inj (hsrc : src < n) (hdst : dst < n) (hne : src ≠ dst) (hsrc' : src' < n)
    (hdst' : dst' < n) (hne' : src' ≠ dst') (h : index n src dst type = index n src' dst' type') :
    (type, src, dst) = (type', src', dst') := by
  obtain ⟨hq, hpos⟩ := digits_inj (position_lt hsrc hdst hne) (position_lt hsrc' hdst' hne') h
  obtain ⟨htype, rfl⟩ := digits_inj hsrc hsrc' hq
  rw [MsgType.toNat_inj htype, position_inj hne hne' hpos]

/-! ## Nothing wraps around -/

theorem sizeofMsgQueue_eq : sizeofMsgQueue = 2 ^ 21 := by decide

theorem toSizeT_of_lt {x : Nat} (h : x < 2 ^ 64) : toSizeT x = x := by
  rw [toSizeT]
  omega

theorem toInt_of_lt {x : Nat} (h : x < 2 ^ 31) : toInt x = x := by
  rw [toInt, Int.bmod_eq_of_le] <;> omega

/-- A product with one less than the number of clients is one of natural numbers. -/
theorem cast_mul_pred {x : Nat} (h : x ≤ n) : (x : Int) * ((n : Int) - 1) = (x * (n - 1) : Nat) := by
  cases n with
  | zero =>
    obtain rfl : x = 0 := by omega
    rfl
  | succ n => simp

section

variable (hn : n * n < 2 ^ 31)
include hn

theorem pairs_lt : n * (n - 1) < 2 ^ 31 :=
  (Nat.mul_le_mul_left n (Nat.sub_le n 1)).trans_lt hn

theorem queueSize_eq : queueSize n = n * (n - 1) * sizeofMsgQueue := by
  have hpairs := pairs_lt hn
  rw [queueSize, cast_mul_pred le_rfl, toInt_of_lt hpairs, ← Nat.cast_mul, toSizeT_of_lt]
  rw [sizeofMsgQueue_eq]
  omega

theorem totalQueueSize_eq : totalQueueSize n = msgTypeNum * n * (n - 1) * sizeofMsgQueue := by
  have hpairs := pairs_lt hn
  rw [totalQueueSize, queueSize_eq hn, ← Nat.cast_mul, toSizeT_of_lt, ← Nat.mul_assoc,
    ← Nat.mul_assoc]
  rw [sizeofMsgQueue_eq, msgTypeNum]
  omega

/-- The queues end within the address space. -/
theorem queues_end_lt : queueBase n + totalQueueSize n < 2 ^ 63 := by
  have hpairs := pairs_lt hn
  have hsmall : n < 2 ^ 16 := by
    by_contra hlarge
    have := Nat.mul_le_mul (Nat.le_of_not_lt hlarge) (Nat.le_of_not_lt hlarge)
    omega
  have hshm : shmTotalSize n = shmSize * n := by
    rw [shmTotalSize, ← Nat.cast_mul, toSizeT_of_lt]
    rw [shmSize]
    omega
  have hbase : queueBase n = globalBase + shmSize * n := by
    rw [queueBase, hshm, ← Nat.cast_add, toSizeT_of_lt]
    rw [globalBase, shmSize]
    omega
  rw [hbase, totalQueueSize_eq hn, Nat.mul_assoc msgTypeNum, sizeofMsgQueue_eq, msgTypeNum,
    globalBase, shmSize]
  omega

theorem index_le (type : MsgType) (hsrc : src < n) (hdst : dst < n) (hne : src ≠ dst) :
    (index n src dst type + 1) * sizeofMsgQueue ≤ totalQueueSize n := by
  rw [totalQueueSize_eq hn]
  exact Nat.mul_le_mul_right _ (index_lt hsrc hdst hne)

theorem getMsgQueue_eq (hsrc : src < n) (hdst : dst < n) (hne : src ≠ dst) :
    getMsgQueue n src dst type = queueBase n + index n src dst type * sizeofMsgQueue := by
  have hpos : (if dst > src then (dst : Int) - 1 else dst) = (position src dst : Nat) := by
    rw [position]
    split <;> omega
  have hpair := (digits_lt hsrc (position_lt hsrc hdst hne)).trans (pairs_lt hn)
  have hindex : type.toNat * (n * (n - 1) * sizeofMsgQueue) +
      (src * (n - 1) + position src dst) * sizeofMsgQueue = index n src dst type * sizeofMsgQueue := by
    rw [index]
    ring
  have hle := index_le hn type hsrc hdst hne
  have hend := queues_end_lt hn
  rw [Nat.succ_mul] at hle
  rw [getMsgQueue, hpos, cast_mul_pred hsrc.le, toInt_of_lt (by omega), ← Nat.cast_add,
    toInt_of_lt hpair, queueSize_eq hn, ← Nat.cast_mul, ← Nat.cast_mul, ← Nat.cast_add,
    ← Nat.cast_add, Nat.add_assoc, hindex, toSizeT_of_lt (by omega)]

theorem msgQueue_disjoint_of_lt (hsrc : src < n) (hdst : dst < n) (hne : src ≠ dst) (hsrc' : src' < n)
    (hdst' : dst' < n) (hne' : src' ≠ dst') (h : index n src dst type < index n src' dst' type') :
    Disjoint (msgQueue n src dst type).bytes (msgQueue n src' dst' type').bytes := by
  refine Extent.disjoint_of_le ?_
  have hle := Nat.mul_le_mul_right sizeofMsgQueue h
  rw [Nat.succ_mul] at hle
  simp only [msgQueue, getMsgQueue_eq hn hsrc hdst hne, getMsgQueue_eq hn hsrc' hdst' hne']
  omega

/-- The queues of different types or pairs of clients are disjoint, and all of them lie in
the range that is set aside for them. -/
theorem msgQueues_disjoint (hsrc : src < n) (hdst : dst < n) (hne : src ≠ dst) :
    (msgQueue n src dst type).bytes ⊆ (Extent.mk (queueBase n) (totalQueueSize n)).bytes ∧
    ∀ type' src' dst', src' < n → dst' < n → src' ≠ dst' → (type, src, dst) ≠ (type', src', dst') →
      Disjoint (msgQueue n src dst type).bytes (msgQueue n src' dst' type').bytes := by
  constructor
  · have hle := index_le hn type hsrc hdst hne
    rw [Nat.succ_mul] at hle
    refine Extent.bytes_subset ?_ ?_ <;> simp only [msgQueue, getMsgQueue_eq hn hsrc hdst hne] <;> omega
  · intro type' src' dst' hsrc' hdst' hne' hdiff
    rcases Nat.lt_trichotomy (index n src dst type) (index n src' dst' type') with hlt | heq | hgt
    · exact msgQueue_disjoint_of_lt hn hsrc hdst hne hsrc' hdst' hne' hlt
    · exact absurd (index_inj hsrc hdst hne hsrc' hdst' hne' heq) hdiff
    · exact (msgQueue_disjoint_of_lt hn hsrc' hdst' hne' hsrc hdst hne hgt).symm

end

/-- With three clients, the queues between the last two. -/
theorem msgQueues_disjoint_threeClients :
    Disjoint (msgQueue 3 1 2 .free).bytes (msgQueue 3 2 1 .free).bytes :=
  (msgQueues_disjoint (by decide) (by decide) (by decide) (by decide)).2 .free 2 1
    (by decide) (by decide) (by decide) (by decide)

end ShmPcc.Mempool
