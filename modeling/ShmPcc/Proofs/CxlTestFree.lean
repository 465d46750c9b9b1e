import ShmPcc.Ref.CxlTestFree

/-!
# Objects are freed once, after their embedded references

A reference is worked on by one thread: its own ones by the thread that has them, those
embedded in an object by the thread that has found itself the last holder of the object,
its worker. There is one worker, since a count of 1 is the count of one reference, and
nobody else can take the object's count to 0 as long as calls that have found other
references do not. So when the count is 0 the worker has gone through the embedded
references, and it is also the one that frees the block.

The condition does not hold by itself. Two calls that find a count of 2 both go on to
`unlink_reference`, and the later one of their CASes takes the count to 0 and frees the
block with its embedded references in it.
-/

namespace ShmPcc.CxlTestFree

open Function
open CxlRefCount (RefInfo packRefInfo)

variable {m m' : Mem} {u w o : Nat} {ref : Slot} {fs : List Frame}

/-! ## The invariant -/

def Mem.refCnt (m : Mem) (o : Nat) : Nat := (m.refInfo o).refCnt

/-- The references thread `u` works on. -/
def Claimed (u : Nat) (m : Mem) : Slot → Prop
  | .own w _ => w = u
  | .embedded o _ => m.worker o = some u

theorem Claimed.unique (h : Claimed u m ref) (h' : Claimed w m ref) : u = w := by
  cases ref with
  | own v k => exact h.symm.trans h'
  | embedded o i => exact Option.some.inj (Eq.symm h |>.trans h')

/-- Every embedded reference of the object has been dropped. -/
def Emptied (m : Mem) (o : Nat) : Prop := ∀ i < m.origCnt o, m.val (.embedded o i) = 0

structure Inv (m : Mem) : Prop where
  counts : Counts 0 m.val m.refCnt
  small : ∀ o, m.refCnt o < 2 ^ 16
  sparse : Sparse 0 m.orig
  once : ∀ ref, m.val ref = m.orig ref ∧ m.log.count (.dropped ref) = 0 ∨
    m.val ref = 0 ∧ m.orig ref ≠ 0 ∧ m.log.count (.dropped ref) = 1
  untouched : ∀ o i, m.worker o = none → m.slot (.embedded o i) = m.val (.embedded o i)
  sole : ∀ o, m.worker o ≠ none → m.refCnt o ≤ 1
  alive : ∀ o, o ≠ 0 → 0 < m.refCnt o →
    m.reaper o = none ∧ m.log.count (.freed o) = 0 ∧ m.embeddedRefCnt o = m.origCnt o
  dead : ∀ o, o ≠ 0 → 0 < tally m.orig o → m.refCnt o = 0 → Emptied m o ∧
    (m.reaper o ≠ none ∧ m.log.count (.freed o) = 0 ∨ m.reaper o = none ∧ m.log.count (.freed o) = 1)
  reaped : ∀ o, m.reaper o ≠ none → o ≠ 0 ∧ 0 < tally m.orig o ∧ m.refCnt o = 0
  order : ∀ l₁ l₂ o, m.log = l₁ ++ .freed o :: l₂ → ∀ i < m.origCnt o,
    m.orig (.embedded o i) ≠ 0 → .dropped (.embedded o i) ∈ l₁

theorem Inv.orig_of_val (h : Inv m) (hv : m.val ref = o) (ho : o ≠ 0) : m.orig ref = o := by
  rcases h.once ref with ⟨heq, -⟩ | ⟨hzero, -⟩
  · exact heq.symm.trans hv
  · exact absurd (hv.symm.trans hzero) ho

theorem Inv.refCnt_pos (h : Inv m) (hv : m.val ref = o) (ho : o ≠ 0) : 0 < m.refCnt o :=
  h.counts.pos ho hv

theorem split_append_one {l l₁ l₂ : List Event} {x y : Event} (h : l ++ [y] = l₁ ++ x :: l₂) :
    y = x ∧ l = l₁ ∨ ∃ l', l = l₁ ++ x :: l' := by
  rcases List.eq_nil_or_concat l₂ with rfl | ⟨l', e, rfl⟩
  · obtain ⟨hl, hy⟩ := List.append_inj' h rfl
    exact .inl ⟨by simpa using hy, hl⟩
  · rw [List.concat_eq_append, ← List.cons_append, ← List.append_assoc] at h
    exact .inr ⟨l', (List.append_inj' h rfl).1⟩

/-! ## What threads do -/

/-- The changes thread `u` makes. -/
inductive Move (u : Nat) (m : Mem) : Mem → Prop where
  | nextEra : Move u m (m.nextEra u)
  | claim {o : Nat} {ref : Slot} (ho : o ≠ 0) (hv : m.val ref = o) (hone : m.refCnt o = 1)
      (hw : m.worker o = none ∨ m.worker o = some u) : Move u m (m.claim u o)
  | cas {o : Nat} {ref : Slot} (hc : Claimed u m ref) (ho : o ≠ 0) (hv : m.val ref = o)
      (hlast : m.refCnt o = 1 → m.worker o = some u ∧ Emptied m o) : Move u m (m.cas u ref o (m.refInfo o))
  | clear {ref : Slot} (hc : Claimed u m ref) (hv : m.val ref = 0) : Move u m (m.clear ref)
  | clearInfo {o : Nat} (hr : m.reaper o = some u) : Move u m (m.clearInfo o)
  | free {o : Nat} (hr : m.reaper o = some u) : Move u m (m.free o)

theorem Inv.refCnt_cas (h : Inv m) (ho : o ≠ 0) (hv : m.val ref = o) :
    (m.cas u ref o (m.refInfo o)).refCnt = update m.refCnt o (m.refCnt o - 1) := by
  have hpos := h.refCnt_pos hv ho
  have hsmall := h.small o
  funext x
  by_cases hx : x = o
  · subst hx
    have hpred : pred (m.refInfo x).refCnt % 2 ^ 16 = m.refCnt x - 1 := by
      rw [pred, Mem.refCnt] at *
      split <;> omega
    simp only [Mem.cas, Mem.refCnt, update_self]
    exact hpred
  · simp [Mem.cas, Mem.refCnt, hx]

theorem Inv.cas (h : Inv m) (hc : Claimed u m ref) (ho : o ≠ 0) (hv : m.val ref = o)
    (hlast : m.refCnt o = 1 → m.worker o = some u ∧ Emptied m o) :
    Inv (m.cas u ref o (m.refInfo o)) := by
  have hpos := h.refCnt_pos hv ho
  have horig := h.orig_of_val hv ho
  have hcnt : (m.cas u ref o (m.refInfo o)).refCnt = _ := h.refCnt_cas ho hv
  have hcnt_ne : ∀ x, x ≠ o → (m.cas u ref o (m.refInfo o)).refCnt x = m.refCnt x := by
    intro x hx
    rw [hcnt, update_of_ne hx]
  have hcnt_self : (m.cas u ref o (m.refInfo o)).refCnt o = m.refCnt o - 1 := by
    rw [hcnt, update_self]
  have hcnt_le : ∀ x, (m.cas u ref o (m.refInfo o)).refCnt x ≤ m.refCnt x := by
    intro x
    by_cases hx : x = o
    · rw [hx, hcnt_self]
      omega
    · rw [hcnt_ne x hx]
  have hval : ∀ r, m.val r = 0 → (m.cas u ref o (m.refInfo o)).val r = 0 := by
    intro r hr
    by_cases hrr : r = ref <;> simp [Mem.cas, hrr, hr]
  have hfreed : ∀ x, (m.cas u ref o (m.refInfo o)).log.count (.freed x) = m.log.count (.freed x) := by
    intro x
    simp [Mem.cas, List.count_append]
  have hreaper_ne : ∀ x, x ≠ o → (m.cas u ref o (m.refInfo o)).reaper x = m.reaper x := by
    intro x hx
    simp only [Mem.cas]
    split <;> simp [hx]
  constructor
  case counts =>
    rw [hcnt]
    exact h.counts.drop ho hv
  case small => exact fun x => Nat.lt_of_le_of_lt (hcnt_le x) (h.small x)
  case sparse => exact h.sparse
  case once =>
    intro r
    by_cases hr : r = ref
    · subst hr
      have hnone := (h.once r).resolve_right fun hz => ho (hv.symm.trans hz.1)
      refine .inr ⟨by simp [Mem.cas], by rw [Mem.cas, horig]; exact ho, ?_⟩
      simp [Mem.cas, List.count_append, hnone.2]
    · have hne : (Event.dropped ref == Event.dropped r) = false := by simpa using Ne.symm hr
      have hlog : (m.cas u ref o (m.refInfo o)).log.count (.dropped r) = m.log.count (.dropped r) := by
        simp [Mem.cas, List.count_append, List.count_singleton, hne]
      have hvr : (m.cas u ref o (m.refInfo o)).val r = m.val r := by simp [Mem.cas, hr]
      rw [hlog, hvr]
      exact h.once r
  case untouched =>
    intro x i hx
    have hr : Slot.embedded x i ≠ ref := by
      rintro rfl
      exact absurd (hx.symm.trans hc) nofun
    simpa [Mem.cas, hr] using h.untouched x i hx
  case sole => exact fun x hx => Nat.le_trans (hcnt_le x) (h.sole x hx)
  case alive =>
    intro x hx hxpos
    have hold := h.alive x hx (Nat.lt_of_lt_of_le hxpos (hcnt_le x))
    rw [hfreed]
    refine ⟨?_, hold.2⟩
    by_cases hxo : x = o
    · subst hxo
      rw [hcnt_self] at hxpos
      have hne : (m.refInfo x).refCnt ≠ 1 := by
        rw [Mem.refCnt] at hxpos
        omega
      simp only [Mem.cas, if_neg hne]
      exact hold.1
    · rw [hreaper_ne x hxo]
      exact hold.1
  case dead =>
    intro x hx horigx hzero
    rw [hfreed]
    by_cases hxo : x = o
    · subst hxo
      have hone : m.refCnt x = 1 := by
        omega
      refine ⟨fun i hi => hval _ ((hlast hone).2 i hi), .inl ⟨?_, (h.alive x hx hpos).2.1⟩⟩
      simp only [Mem.cas, if_pos (show (m.refInfo x).refCnt = 1 from hone)]
      simp
    · rw [hcnt_ne x hxo] at hzero
      obtain ⟨hempty, hreap⟩ := h.dead x hx horigx hzero
      rw [hreaper_ne x hxo]
      exact ⟨fun i hi => hval _ (hempty i hi), hreap⟩
  case reaped =>
    intro x hx
    by_cases hxo : x = o
    · subst hxo
      by_cases hone : (m.refInfo x).refCnt = 1
      · refine ⟨ho, tally_pos h.sparse ho horig, ?_⟩
        rw [hcnt_self, show m.refCnt x = 1 from hone]
      · simp only [Mem.cas, if_neg hone] at hx
        exact absurd (h.alive x ho hpos).1 hx
    · rw [hreaper_ne x hxo] at hx
      rw [hcnt_ne x hxo]
      exact h.reaped x hx
  case order =>
    intro l₁ l₂ x hlog i hi hne
    rcases split_append_one hlog with ⟨hl, -⟩ | ⟨l, hl⟩
    · cases hl
    · exact h.order l₁ l x hl i hi hne

theorem Inv.claim (h : Inv m) (hone : m.refCnt o = 1) : Inv (m.claim u o) := by
  refine { h with untouched := fun x i hx => ?_, sole := fun x hx => ?_ }
  · by_cases hxo : x = o
    · simp [Mem.claim, hxo] at hx
    · exact h.untouched x i (by simpa [Mem.claim, hxo] using hx)
  · by_cases hxo : x = o
    · rw [hxo]
      exact hone.le
    · exact h.sole x (by simpa [Mem.claim, hxo] using hx)

theorem Inv.clear (h : Inv m) (hc : Claimed u m ref) : Inv (m.clear ref) := by
  refine { h with untouched := fun x i hx => ?_ }
  have hr : Slot.embedded x i ≠ ref := by
    rintro rfl
    exact absurd (hx.symm.trans hc) nofun
  simpa [Mem.clear, hr] using h.untouched x i hx

theorem Inv.refCnt_clearInfo (h : Inv m) (hr : m.reaper o = some u) :
    (m.clearInfo o).refCnt = m.refCnt := by
  have hzero := (h.reaped o (by rw [hr]; nofun)).2.2
  funext x
  by_cases hx : x = o
  · rw [hx, hzero]
    simp [Mem.clearInfo, Mem.refCnt]
  · simp [Mem.clearInfo, Mem.refCnt, hx]

theorem Inv.clearInfo (h : Inv m) (hr : m.reaper o = some u) : Inv (m.clearInfo o) := by
  have hcnt := h.refCnt_clearInfo hr
  constructor
  case counts => exact hcnt ▸ h.counts
  case small => exact hcnt ▸ h.small
  case sparse => exact h.sparse
  case once => exact h.once
  case untouched => exact h.untouched
  case sole => exact hcnt ▸ h.sole
  case alive => exact hcnt ▸ h.alive
  case dead => exact hcnt ▸ h.dead
  case reaped => exact hcnt ▸ h.reaped
  case order => exact h.order

theorem Inv.free (h : Inv m) (hr : m.reaper o = some u) : Inv (m.free o) := by
  obtain ⟨ho, horig, hzero⟩ := h.reaped o (by rw [hr]; nofun)
  obtain ⟨hempty, hcount⟩ := h.dead o ho horig hzero
  have hnone : m.log.count (.freed o) = 0 := by
    rcases hcount with ⟨-, h0⟩ | ⟨h0, -⟩
    · exact h0
    · exact absurd (hr.symm.trans h0) nofun
  have hdropped : ∀ r, (m.free o).log.count (.dropped r) = m.log.count (.dropped r) := by
    intro r
    simp [Mem.free, List.count_append]
  have hfreed : ∀ x, x ≠ o → (m.free o).log.count (.freed x) = m.log.count (.freed x) := by
    intro x hx
    have hne : (Event.freed o == Event.freed x) = false := by simpa using Ne.symm hx
    simp [Mem.free, List.count_append, List.count_singleton, hne]
  have hreaper : ∀ x, x ≠ o → (m.free o).reaper x = m.reaper x := fun x hx => by simp [Mem.free, hx]
  constructor
  case counts => exact h.counts
  case small => exact h.small
  case sparse => exact h.sparse
  case once =>
    intro r
    rw [hdropped]
    exact h.once r
  case untouched => exact h.untouched
  case sole => exact h.sole
  case alive =>
    intro x hx hpos
    have hxo : x ≠ o := by
      rintro rfl
      exact absurd hzero (Nat.ne_of_gt hpos)
    rw [hreaper x hxo, hfreed x hxo]
    refine ⟨(h.alive x hx hpos).1, (h.alive x hx hpos).2.1, ?_⟩
    simpa [Mem.free, hxo] using (h.alive x hx hpos).2.2
  case dead =>
    intro x hx horigx hzerox
    by_cases hxo : x = o
    · subst hxo
      refine ⟨hempty, .inr ⟨by simp [Mem.free], ?_⟩⟩
      simp [Mem.free, List.count_append, hnone]
    · rw [hreaper x hxo, hfreed x hxo]
      exact h.dead x hx horigx hzerox
  case reaped =>
    intro x hx
    by_cases hxo : x = o
    · simp [Mem.free, hxo] at hx
    · exact h.reaped x (hreaper x hxo ▸ hx)
  case order =>
    intro l₁ l₂ x hlog i hi hne
    rcases split_append_one hlog with ⟨hx, hl⟩ | ⟨l, hl⟩
    · -- the embedded references were dropped before the count was 0
      cases hx
      rw [← hl]
      rcases h.once (.embedded o i) with ⟨heq, -⟩ | ⟨-, -, hone⟩
      · exact absurd (heq.symm.trans (hempty i hi)) hne
      · exact List.count_pos_iff.mp (hone ▸ Nat.one_pos)
    · exact h.order l₁ l x hl i hi hne

theorem Move.inv (hmove : Move u m m') (h : Inv m) : Inv m' := by
  cases hmove with
  | nextEra => exact { h with }
  | claim ho hv hone hw => exact h.claim hone
  | cas hc ho hv hlast => exact h.cas hc ho hv hlast
  | clear hc hv => exact h.clear hc
  | clearInfo hr => exact h.clearInfo hr
  | free hr => exact h.free hr

/-! ## What a thread relies on -/

structure Kept (w : Nat) (m m' : Mem) : Prop where
  val : ∀ ref, Claimed w m ref → m'.val ref = m.val ref
  slot : ∀ ref, Claimed w m ref → m'.slot ref = m.slot ref
  worker : ∀ o, m'.worker o = some w ↔ m.worker o = some w
  reaper : ∀ o, m'.reaper o = some w ↔ m.reaper o = some w
  origCnt : m'.origCnt = m.origCnt
  refCnt : ∀ o, 0 < m'.refCnt o → 0 < m.refCnt o

theorem Move.kept (hmove : Move u m m') (h : Inv m) (hw : w ≠ u) : Kept w m m' := by
  have hrefl : Kept w m m :=
    ⟨fun _ _ => rfl, fun _ _ => rfl, fun _ => .rfl, fun _ => .rfl, rfl, fun _ => id⟩
  have hother : ∀ r r', Claimed u m r → Claimed w m r' → r' ≠ r := by
    rintro r r' hu hw' rfl
    exact hw (hw'.unique hu)
  cases hmove with
  | nextEra => exact { hrefl with }
  | @claim o ref ho hv hone hwk =>
    refine { hrefl with worker := fun x => ?_ }
    by_cases hx : x = o
    · subst hx
      simp only [Mem.claim, update_self, Option.some.injEq]
      refine iff_of_false (Ne.symm hw) fun hxw => ?_
      rcases hwk with hnone | hmine
      · exact absurd (hnone.symm.trans hxw) nofun
      · exact hw (Option.some.inj (hxw.symm.trans hmine))
    · simp [Mem.claim, hx]
  | @cas o ref hc ho hv hlast =>
    refine { hrefl with val := fun r hr => ?_, reaper := fun x => ?_, refCnt := fun x hx => ?_ }
    · exact update_of_ne (hother ref r hc hr) ..
    · have halive := (h.alive o ho (h.refCnt_pos hv ho)).1
      simp only [Mem.cas]
      split
      · by_cases hx : x = o
        · subst hx
          rw [update_self, halive]
          exact iff_of_false (fun heq => hw (Option.some.inj heq).symm) nofun
        · rw [update_of_ne hx]
      · exact .rfl
    · rw [h.refCnt_cas ho hv] at hx
      by_cases hxo : x = o
      · subst hxo
        exact h.refCnt_pos hv ho
      · rwa [update_of_ne hxo] at hx
  | @clear ref hc hv =>
    exact { hrefl with slot := fun r hr => update_of_ne (hother ref r hc hr) .. }
  | clearInfo hr => exact { hrefl with refCnt := h.refCnt_clearInfo hr ▸ fun _ => id }
  | @free o hr =>
    refine { hrefl with reaper := fun x => ?_ }
    by_cases hx : x = o
    · subst hx
      simp only [Mem.free, update_self]
      exact iff_of_false nofun fun heq => hw (Option.some.inj (heq.symm.trans hr))
    · simp [Mem.free, hx]

/-! ## Where a thread is -/

/-- The call for `ref` goes through the embedded references of `refed`, and is at `i`. -/
def Working (u : Nat) (m : Mem) (ref : Slot) (refed i : Nat) : Prop :=
  refed ≠ 0 ∧ m.val ref = refed ∧ m.worker refed = some u ∧ ∀ j < i, m.val (.embedded refed j) = 0

/-- The calls below the one for `ref` wait for it. -/
def Waits (u : Nat) (m : Mem) (ref : Slot) : List Frame → Prop
  | [] => ∃ k, ref = .own u k
  | ⟨ref', .inner refed i⟩ :: fs =>
    ref = .embedded refed i ∧ Working u m ref' refed i ∧ Waits u m ref' fs
  | _ :: _ => False

def At (u : Nat) (m : Mem) (ref : Slot) : Pc → Prop
  | .start => True
  | .info refed => refed ≠ 0 ∧ m.val ref = refed
  | .loop refed i => Working u m ref refed i
  | .inner _ _ => False
  | .load refed sole | .cas refed _ sole =>
    refed ≠ 0 ∧ m.val ref = refed ∧ (sole = true → m.worker refed = some u ∧ Emptied m refed)
  | .clear _ _ | .era _ _ | .memset _ | .free _ => m.val ref = 0

def Stacked (u : Nat) (m : Mem) : List Frame → Prop
  | [] => True
  | f :: fs => At u m f.ref f.pc ∧ Waits u m f.ref fs

/-- The reference whose count has been taken but which is not cleared yet. -/
def opened : List Frame → Option Slot
  | ⟨ref, .clear _ _⟩ :: _ => some ref
  | _ => none

/-- The object whose count the call has taken to 0. -/
def Pc.reaps : Pc → Option Nat
  | .clear refed saw | .era refed saw => if saw.refCnt = 1 then some refed else none
  | .memset refed | .free refed => some refed
  | _ => none

def reaping : List Frame → Option Nat
  | [] => none
  | f :: _ => f.pc.reaps

structure Thread (u : Nat) (fs : List Frame) (m : Mem) : Prop where
  stacked : Stacked u m fs
  nodup : (fs.map Frame.ref).Nodup
  settled : ∀ ref, Claimed u m ref → opened fs ≠ some ref → m.slot ref = m.val ref
  work : ∀ o, o ≠ 0 → m.worker o = some u → 0 < m.refCnt o → ∃ ref, Claimed u m ref ∧ m.val ref = o
  reap : ∀ o, m.reaper o = some u ↔ reaping fs = some o

theorem Waits.claimed (h : Waits u m ref fs) : Claimed u m ref := by
  cases fs with
  | nil =>
    obtain ⟨k, rfl⟩ := h
    rfl
  | cons f fs =>
    obtain ⟨ref', pc⟩ := f
    cases pc with
    | inner refed i =>
      obtain ⟨rfl, hwork, -⟩ := h
      exact hwork.2.2.1
    | _ => exact h.elim

theorem Waits.keep {ref : Slot} (h : Waits u m ref fs)
    (hval : ∀ f ∈ fs, Claimed u m f.ref → m'.val f.ref = m.val f.ref)
    (hzero : ∀ r, Claimed u m r → m.val r = 0 → m'.val r = 0)
    (hworker : ∀ o, m.worker o = some u → m'.worker o = some u) : Waits u m' ref fs := by
  induction fs generalizing ref with
  | nil => exact h
  | cons f fs ih =>
    obtain ⟨ref', pc⟩ := f
    cases pc with
    | inner refed i =>
      obtain ⟨hr, ⟨hne, hv, hw, hz⟩, hwait⟩ := h
      have hv' := hval _ (.head _) hwait.claimed
      refine ⟨hr, ⟨hne, hv'.trans hv, hworker _ hw, fun j hj => hzero _ hw (hz j hj)⟩, ?_⟩
      exact ih hwait fun f hf => hval f (.tail _ hf)
    | _ => exact h.elim

theorem At.keep {pc : Pc} (h : At u m ref pc) (hval : m'.val ref = m.val ref)
    (hzero : ∀ r, Claimed u m r → m.val r = 0 → m'.val r = 0)
    (hworker : ∀ o, m.worker o = some u → m'.worker o = some u) (horig : m'.origCnt = m.origCnt) :
    At u m' ref pc := by
  -- what has been dropped stays so
  have hempty : ∀ o, m.worker o = some u → Emptied m o → Emptied m' o := by
    intro o hw he i hi
    rw [horig] at hi
    exact hzero _ hw (he i hi)
  cases pc with
  | start => trivial
  | inner refed i => exact h
  | info refed => exact ⟨h.1, hval.trans h.2⟩
  | loop refed i =>
    obtain ⟨hne, hv, hw, hz⟩ := h
    exact ⟨hne, hval.trans hv, hworker _ hw, fun j hj => hzero _ hw (hz j hj)⟩
  | load refed sole | cas refed info sole =>
    obtain ⟨hne, hv, hs⟩ := h
    exact ⟨hne, hval.trans hv, fun h1 => ⟨hworker _ (hs h1).1, hempty _ (hs h1).1 (hs h1).2⟩⟩
  | clear refed info | era refed info | memset refed | free refed => exact hval.trans h

theorem Thread.kept (h : Thread u fs m) (hk : Kept u m m') : Thread u fs m' := by
  have hclaimed : ∀ ref, Claimed u m' ref ↔ Claimed u m ref := by
    intro ref
    cases ref with
    | own v k => exact .rfl
    | embedded o i => exact hk.worker o
  have hzero : ∀ r, Claimed u m r → m.val r = 0 → m'.val r = 0 := fun r hr h0 => (hk.val r hr).trans h0
  have hworker : ∀ o, m.worker o = some u → m'.worker o = some u := fun o => (hk.worker o).mpr
  refine ⟨?_, h.nodup, fun ref hr ho => ?_, fun o ho hw hpos => ?_, fun o => (hk.reaper o).trans (h.reap o)⟩
  · cases fs with
    | nil => trivial
    | cons f fs =>
      obtain ⟨hat, hwait⟩ := h.stacked
      refine ⟨hat.keep (hk.val _ hwait.claimed) hzero hworker hk.origCnt, ?_⟩
      exact hwait.keep (fun f _ hf => hk.val _ hf) hzero hworker
  · have hr := (hclaimed ref).mp hr
    rw [hk.slot ref hr, hk.val ref hr]
    exact h.settled ref hr ho
  · obtain ⟨ref, hr, hv⟩ := h.work o ho ((hk.worker o).mp hw) (hk.refCnt o hpos)
    exact ⟨ref, (hclaimed ref).mpr hr, (hk.val ref hr).trans hv⟩

theorem Waits.ret (h : Waits u m ref fs) (hv : m.val ref = 0) : Stacked u m (ret fs) := by
  cases fs with
  | nil => trivial
  | cons f fs =>
    obtain ⟨ref', pc⟩ := f
    cases pc with
    | inner refed i =>
      obtain ⟨rfl, ⟨hne, hv', hw, hz⟩, hwait⟩ := h
      refine ⟨⟨hne, hv', hw, fun j hj => ?_⟩, hwait⟩
      rcases Nat.lt_succ_iff_lt_or_eq.mp hj with hlt | rfl
      · exact hz j hlt
      · exact hv
    | _ => exact h.elim

theorem map_ref_ret (fs : List Frame) : (ret fs).map Frame.ref = fs.map Frame.ref := by
  rcases fs with - | ⟨⟨ref, pc⟩, fs⟩
  · rfl
  · cases pc <;> rfl

theorem Waits.reaping_ret (h : Waits u m ref fs) : reaping (CxlTestFree.ret fs) = none := by
  cases fs with
  | nil => rfl
  | cons f fs =>
    obtain ⟨ref', pc⟩ := f
    cases pc <;> first | rfl | exact h.elim

/-- An embedded reference that is worked on is worked on by the call below. -/
theorem Waits.holder {i : Nat} {ref : Slot} (h : Waits u m ref fs)
    (hmem : Slot.embedded o i ∈ ref :: fs.map Frame.ref) : ∃ f ∈ fs, m.val f.ref = o := by
  induction fs generalizing ref with
  | nil =>
    obtain ⟨k, rfl⟩ := h
    cases List.mem_singleton.mp hmem
  | cons f fs ih =>
    obtain ⟨ref', pc⟩ := f
    cases pc with
    | inner refed j =>
      obtain ⟨rfl, hwork, hwait⟩ := h
      rcases List.mem_cons.mp hmem with heq | hmem
      · cases heq
        exact ⟨_, .head _, hwork.2.1⟩
      · obtain ⟨f, hf, hv⟩ := ih hwait hmem
        exact ⟨f, .tail _ hf, hv⟩
    | _ => exact h.elim

theorem Waits.not_mem {refed i : Nat} (h : Waits u m ref fs) (hinv : Inv m) (hv : m.val ref = refed)
    (hne : refed ≠ 0) (hw : m.worker refed = some u) (hnodup : (ref :: fs.map Frame.ref).Nodup) :
    Slot.embedded refed i ∉ ref :: fs.map Frame.ref := by
  intro hmem
  obtain ⟨f, hf, hvf⟩ := h.holder hmem
  have hone := hinv.sole refed (by rw [hw]; nofun)
  have heq : f.ref = ref := hinv.counts.unique hne hone hvf hv
  exact (List.nodup_cons.mp hnodup).1 (heq ▸ List.mem_map_of_mem hf)

/-! ## Steps -/

section Steps

variable {pc pc' : Pc} {refed : Nat}

theorem Thread.goOn (h : Thread u (⟨ref, pc⟩ :: fs) m) (hopen : opened (⟨ref, pc⟩ :: fs) = none)
    (hat : At u m ref pc') (hreap : pc'.reaps = pc.reaps) : Thread u (⟨ref, pc'⟩ :: fs) m where
  stacked := ⟨hat, h.stacked.2⟩
  nodup := h.nodup
  settled r hr _ := h.settled r hr (by rw [hopen]; nofun)
  work := h.work
  reap o := (h.reap o).trans (by rw [reaping, reaping, hreap])

theorem Thread.ret (h : Thread u (⟨ref, pc⟩ :: fs) m) (hopen : opened (⟨ref, pc⟩ :: fs) = none)
    (hv : m.val ref = 0) (hreap : pc.reaps = none) : Thread u (CxlTestFree.ret fs) m where
  stacked := h.stacked.2.ret hv
  nodup := by
    rw [map_ref_ret]
    exact (List.nodup_cons.mp h.nodup).2
  settled r hr _ := h.settled r hr (by rw [hopen]; nofun)
  work := h.work
  reap o := by
    rw [h.reap o, h.stacked.2.reaping_ret, reaping, hreap]

theorem Thread.claim (h : Thread u (⟨ref, .info refed⟩ :: fs) m) (hinv : Inv m)
    (hw : m.worker refed = none ∨ m.worker refed = some u) :
    Thread u (⟨ref, .loop refed 0⟩ :: fs) (m.claim u refed) := by
  obtain ⟨⟨hne, hv⟩, hwait⟩ := h.stacked
  have hworker : ∀ o, m.worker o = some u → (m.claim u refed).worker o = some u := by
    intro o ho
    by_cases hor : o = refed <;> simp [Mem.claim, hor, ho]
  have hclaimed : ∀ r, Claimed u m r → Claimed u (m.claim u refed) r := by
    intro r hr
    cases r with
    | own v k => exact hr
    | embedded o i => exact hworker o hr
  refine ⟨⟨⟨hne, hv, by simp [Mem.claim], nofun⟩, ?_⟩, h.nodup, fun r hr _ => ?_, fun o ho how hpos => ?_,
    h.reap⟩
  · exact hwait.keep (fun _ _ _ => rfl) (fun _ _ h0 => h0) hworker
  · -- the embedded references have not been touched
    by_cases hold : Claimed u m r
    · exact h.settled r hold nofun
    · cases r with
      | own v k => exact absurd hr hold
      | embedded o i =>
        by_cases hor : o = refed
        · subst hor
          exact hinv.untouched o i (hw.resolve_right hold)
        · exact absurd (by simpa [Claimed, Mem.claim, hor] using hr) hold
  · by_cases hor : o = refed
    · exact ⟨ref, hclaimed ref hwait.claimed, hv.trans hor.symm⟩
    · obtain ⟨r, hr, hvr⟩ := h.work o ho (by simpa [Mem.claim, hor] using how) hpos
      exact ⟨r, hclaimed r hr, hvr⟩

theorem Thread.cas {sole : Bool} (h : Thread u (⟨ref, .cas refed (m.refInfo refed) sole⟩ :: fs) m)
    (hinv : Inv m) : Thread u (⟨ref, .clear refed (m.refInfo refed)⟩ :: fs)
      (m.cas u ref refed (m.refInfo refed)) := by
  obtain ⟨⟨hne, hv, -⟩, hwait⟩ := h.stacked
  have hval : ∀ r, r ≠ ref → (m.cas u ref refed (m.refInfo refed)).val r = m.val r :=
    fun r hr => update_of_ne hr ..
  have hself : (m.cas u ref refed (m.refInfo refed)).val ref = 0 := update_self ..
  refine ⟨⟨hself, ?_⟩, h.nodup, fun r hr ho => ?_, fun o ho how hpos => ?_, fun o => ?_⟩
  · refine hwait.keep (fun f hf _ => hval _ fun heq => ?_) (fun r _ h0 => ?_) fun _ => id
    · have hmem : f.ref ∈ fs.map Frame.ref := List.mem_map_of_mem hf
      rw [heq] at hmem
      exact (List.nodup_cons.mp h.nodup).1 hmem
    · by_cases hr : r = ref
      · rw [hr, hself]
      · rw [hval r hr, h0]
  · have hr' : r ≠ ref := fun heq => ho (by rw [heq]; rfl)
    rw [hval r hr']
    exact h.settled r hr nofun
  · rw [hinv.refCnt_cas hne hv] at hpos
    by_cases hor : o = refed
    · -- its count was 1
      subst hor
      have hone := hinv.sole o (by rw [show m.worker o = some u from how]; nofun)
      rw [update_self] at hpos
      omega
    · rw [update_of_ne hor] at hpos
      obtain ⟨r, hr, hvr⟩ := h.work o ho how hpos
      refine ⟨r, hr, (hval r fun heq => ?_).trans hvr⟩
      rw [heq] at hvr
      exact hor (hvr.symm.trans hv)
  · have hnone : m.reaper o ≠ some u := fun heq => absurd ((h.reap o).mp heq) nofun
    simp only [Mem.cas, reaping, Pc.reaps]
    by_cases hone : (m.refInfo refed).refCnt = 1
    · rw [if_pos hone, if_pos hone]
      by_cases hor : o = refed
      · simp [hor]
      · rw [update_of_ne hor]
        exact iff_of_false hnone fun heq => hor (Option.some.inj heq).symm
    · rw [if_neg hone, if_neg hone]
      exact iff_of_false hnone nofun

theorem Thread.clear {info : RefInfo} (h : Thread u (⟨ref, .clear refed info⟩ :: fs) m) :
    Thread u (⟨ref, .era refed info⟩ :: fs) (m.clear ref) := by
  obtain ⟨hv, hwait⟩ := h.stacked
  refine ⟨⟨hv, ?_⟩, h.nodup, fun r hr _ => ?_, h.work, h.reap⟩
  · exact hwait.keep (fun _ _ _ => rfl) (fun _ _ h0 => h0) fun _ => id
  · by_cases hrr : r = ref
    · rw [hrr]
      exact (update_self ..).trans hv.symm
    · have hold := h.settled r hr fun heq => hrr (Option.some.inj heq).symm
      exact (update_of_ne hrr ..).trans hold

theorem Thread.free (h : Thread u (⟨ref, .free refed⟩ :: fs) m) :
    Thread u (CxlTestFree.ret fs) (m.free refed) := by
  obtain ⟨hv, hwait⟩ := h.stacked
  have hwait' : Waits u (m.free refed) ref fs :=
    hwait.keep (fun _ _ _ => rfl) (fun _ _ h0 => h0) fun _ => id
  refine ⟨hwait'.ret hv, ?_, fun r hr _ => h.settled r hr nofun, h.work, fun o => ?_⟩
  · rw [map_ref_ret]
    exact (List.nodup_cons.mp h.nodup).2
  · rw [hwait'.reaping_ret]
    refine iff_of_false (fun heq => ?_) nofun
    by_cases hor : o = refed
    · simp [Mem.free, hor] at heq
    · have hold : m.reaper o = some u := by simpa [Mem.free, hor] using heq
      exact hor (Option.some.inj ((h.reap o).mp hold)).symm

end Steps

section Runs

variable {s : Sys Mem (List Frame)}

/-- Nobody else is the worker of an object with one reference. -/
theorem worker_of_refCnt (hinv : Inv m) {loc : Nat → List Frame} (hT : ∀ w, Thread w (loc w) m)
    (ho : o ≠ 0) (hone : m.refCnt o = 1) (hc : Claimed u m ref) (hv : m.val ref = o) :
    m.worker o = none ∨ m.worker o = some u := by
  cases hw : m.worker o with
  | none => exact .inl rfl
  | some w =>
    obtain ⟨r, hr, hvr⟩ := (hT w).work o ho hw (by omega)
    have heq : r = ref := hinv.counts.unique ho hone.le hvr hv
    subst heq
    exact .inr (by rw [hr.unique hc])

theorem run_thread {fs' : List Frame} (hinv : Inv s.mem) (hT : ∀ w, Thread w (s.loc w) s.mem)
    (hshare : shares s.mem (s.loc u) = true) (h : run u (s.loc u) s.mem = some (fs', m')) :
    Thread u fs' m' ∧ (m' = s.mem ∨ Move u s.mem m') := by
  have hu := hT u
  generalize s.loc u = fs at h hu hshare
  rcases fs with - | ⟨⟨ref, pc⟩, fs⟩
  · cases h
  obtain ⟨hat, hwait⟩ := hu.stacked
  cases pc with
  | start =>
    have hsettled : s.mem.slot ref = s.mem.val ref := hu.settled ref hwait.claimed nofun
    obtain ⟨rfl, rfl⟩ := h
    refine ⟨?_, .inl rfl⟩
    split
    · next h0 => exact hu.ret rfl (hsettled.symm.trans h0) rfl
    · next h0 => exact hu.goOn rfl ⟨h0, hsettled.symm⟩ rfl
  | info refed =>
    obtain ⟨hne, hv⟩ := hat
    simp only [run] at h
    split at h
    · cases h
      exact ⟨hu.goOn rfl ⟨hne, hv, nofun⟩ rfl, .inl rfl⟩
    · next hone =>
      cases h
      have hone : s.mem.refCnt refed = 1 := not_not.mp hone
      have hw := worker_of_refCnt hinv hT hne hone hwait.claimed hv
      exact ⟨hu.claim hinv hw, .inr (.claim hne hv hone hw)⟩
  | loop refed i =>
    obtain ⟨hne, hv, hw, hz⟩ := hat
    obtain ⟨rfl, rfl⟩ := h
    refine ⟨?_, .inl rfl⟩
    split
    · refine ⟨⟨trivial, rfl, ⟨hne, hv, hw, hz⟩, hwait⟩, ?_, fun r hr _ => hu.settled r hr nofun, hu.work,
        hu.reap⟩
      exact List.nodup_cons.mpr ⟨hwait.not_mem hinv hv hne hw hu.nodup, hu.nodup⟩
    · next hge =>
      refine hu.goOn rfl ⟨hne, hv, fun _ => ⟨hw, fun j hj => hz j ?_⟩⟩ rfl
      rw [← (hinv.alive refed hne (hinv.refCnt_pos hv hne)).2.2] at hj
      omega
  | inner refed i => exact hat.elim
  | load refed sole =>
    cases h
    exact ⟨hu.goOn rfl hat rfl, .inl rfl⟩
  | cas refed info sole =>
    simp only [run] at h
    split at h
    · next heq =>
      cases h
      subst heq
      refine ⟨hu.cas hinv, .inr (.cas hwait.claimed hat.1 hat.2.1 fun hone => ?_)⟩
      cases sole with
      | true => exact hat.2.2 rfl
      | false => exact absurd hone (of_decide_eq_true hshare rfl)
    · cases h
      exact ⟨hu.goOn rfl hat rfl, .inl rfl⟩
  | clear refed info =>
    cases h
    exact ⟨hu.clear, .inr (.clear hwait.claimed hat)⟩
  | era refed info =>
    obtain ⟨rfl, rfl⟩ := h
    have hmove : Move u s.mem (s.mem.nextEra u) := .nextEra
    have hu' : Thread u (⟨ref, .era refed info⟩ :: fs) (s.mem.nextEra u) := hu.kept
      ⟨fun _ _ => rfl, fun _ _ => rfl, fun _ => .rfl, fun _ => .rfl, rfl, fun _ => id⟩
    refine ⟨?_, .inr hmove⟩
    split
    · next hne => exact hu'.ret rfl hat (if_neg hne)
    · next hone => exact hu'.goOn rfl hat (if_pos (not_not.mp hone)).symm
  | memset refed =>
    cases h
    have hr : s.mem.reaper refed = some u := (hu.reap refed).mpr rfl
    have hu' : Thread u (⟨ref, .memset refed⟩ :: fs) (s.mem.clearInfo refed) := hu.kept
      ⟨fun _ _ => rfl, fun _ _ => rfl, fun _ => .rfl, fun _ => .rfl, rfl,
        hinv.refCnt_clearInfo hr ▸ fun _ => id⟩
    exact ⟨hu'.goOn rfl hat rfl, .inr (.clearInfo hr)⟩
  | free refed =>
    cases h
    exact ⟨hu.free, .inr (.free ((hu.reap refed).mpr rfl))⟩

theorem call_thread {op : Op} {fs' : List Frame} (hu : Thread u fs m)
    (h : call u op fs m = some (fs', m')) : Thread u fs' m' ∧ m' = m := by
  cases op with
  | testFree k =>
    cases fs with
    | nil =>
      cases h
      refine ⟨⟨⟨trivial, k, rfl⟩, List.nodup_singleton _, fun r hr _ => hu.settled r hr nofun, hu.work,
        hu.reap⟩, rfl⟩
    | cons f fs => cases h

theorem holds_of_reach (h : machine.Reach sharing Fresh s) : Machine.Holds Inv Thread s := by
  refine h.invariant ?_ ?_
  · intro s hs
    have hval := hs.val
    refine ⟨?_, fun u => ?_⟩
    · constructor
      case counts => exact hval ▸ hs.counts
      case small => exact hs.small
      case sparse => exact hs.orig ▸ hs.counts.sparse
      case once => exact fun ref => .inl ⟨by rw [hval, hs.orig], by rw [hs.log]; rfl⟩
      case untouched => exact fun o i _ => by rw [hval]
      case sole => exact fun o ho => absurd (hs.worker o) ho
      case alive => exact fun o _ _ => ⟨hs.reaper o, by rw [hs.log]; rfl, by rw [hs.origCnt]⟩
      case dead =>
        intro o ho hpos hzero
        rw [hs.orig, ← hs.counts.eq o ho] at hpos
        exact absurd hzero (Nat.ne_of_gt hpos)
      case reaped => exact fun o ho => absurd (hs.reaper o) ho
      case order =>
        intro l₁ l₂ o hlog
        rw [hs.log] at hlog
        simp at hlog
    · rw [hs.idle u]
      refine ⟨trivial, List.nodup_nil, fun r _ _ => by rw [hval], fun o _ how => ?_, fun o => ?_⟩
      · rw [hs.worker o] at how
        cases how
      · rw [hs.reaper o]
        exact iff_of_false nofun nofun
  · intro s a l m ⟨hinv, hT⟩ hshare hact
    cases a with
    | call u op =>
      obtain ⟨hl, rfl⟩ := call_thread (hT u) hact
      exact ⟨hinv, hl, fun w _ => hT w⟩
    | run u =>
      obtain ⟨hl, rfl | hmove⟩ := run_thread hinv hT hshare hact
      · exact ⟨hinv, hl, fun w _ => hT w⟩
      · exact ⟨hmove.inv hinv, hl, fun w hw => (hT w).kept (hmove.kept hinv hw)⟩

/-- When all calls have returned, an object whose count is 0 has been freed once, and
each of its embedded references was dropped once, before that. -/
theorem freed_after_embedded (h : machine.Reach sharing Fresh s) (hidle : ∀ u, s.loc u = [])
    (ho : o ≠ 0) (horig : 0 < tally s.mem.orig o) (hzero : (s.mem.refInfo o).refCnt = 0) :
    s.mem.log.count (.freed o) = 1 ∧
      ∀ i < s.mem.origCnt o, s.mem.orig (.embedded o i) ≠ 0 →
        s.mem.log.count (.dropped (.embedded o i)) = 1 ∧
          ∀ l₁ l₂, s.mem.log = l₁ ++ .freed o :: l₂ → .dropped (.embedded o i) ∈ l₁ := by
  obtain ⟨hinv, hT⟩ := holds_of_reach h
  obtain ⟨hempty, hfreed⟩ := hinv.dead o ho horig hzero
  refine ⟨?_, fun i hi hne => ⟨?_, fun l₁ l₂ hlog => hinv.order l₁ l₂ o hlog i hi hne⟩⟩
  · rcases hfreed with ⟨hreaper, -⟩ | ⟨-, hone⟩
    · -- the thread that is to free the block would still be in a call
      obtain ⟨w, hw⟩ := Option.ne_none_iff_exists'.mp hreaper
      have hreap := ((hT w).reap o).mp hw
      rw [hidle w] at hreap
      cases hreap
    · exact hone
  · rcases hinv.once (.embedded o i) with ⟨heq, -⟩ | ⟨-, -, hone⟩
    · exact absurd (heq.symm.trans (hempty i hi)) hne
    · exact hone

/-- Two threads hold object 8, in which there is the only reference to object 9. -/
def twoHolders : Mem where
  slot := update (update (update (fun _ => 0) (.own 0 0) 8) (.own 1 0) 8)
    (.embedded 8 0) 9
  refInfo o := if o = 8 then ⟨1, 2, 0⟩ else if o = 9 then ⟨1, 1, 0⟩ else ⟨0, 0, 0⟩
  embeddedRefCnt o := if o = 8 then 1 else 0
  era _ := 1
  val := update (update (update (fun _ => 0) (.own 0 0) 8) (.own 1 0) 8)
    (.embedded 8 0) 9
  orig := update (update (update (fun _ => 0) (.own 0 0) 8) (.own 1 0) 8)
    (.embedded 8 0) 9
  origCnt o := if o = 8 then 1 else 0
  worker _ := none
  reaper _ := none
  log := []

theorem counts_twoHolders : Counts 0 twoHolders.slot fun o => (twoHolders.refInfo o).refCnt := by
  have hempty : Counts 0 (fun _ : Slot => 0) fun _ => 0 := .empty
  have hadd := ((hempty.add (i := .own 0 0) (x := 8) (by decide) rfl).add (i := .own 1 0) (x := 8)
    (by decide) rfl).add (i := .embedded 8 0) (x := 9) (by decide) rfl
  have hcnt : (fun o => (twoHolders.refInfo o).refCnt) = update (update (update
      (fun _ => 0) 8 1) 8 2) 9 1 := by
    funext o
    by_cases h8 : o = 8
    · subst h8
      rfl
    · by_cases h9 : o = 9
      · subst h9
        rfl
      · simp [twoHolders, h8, h9]
  rw [hcnt]
  exact hadd

theorem fresh_twoHolders : Fresh ⟨twoHolders, fun _ => []⟩ where
  idle _ := rfl
  counts := counts_twoHolders
  small o := by
    simp only [twoHolders]
    split
    · decide
    · split <;> decide
  val := rfl
  orig := rfl
  origCnt := rfl
  worker _ := rfl
  reaper _ := rfl
  log := rfl

/-- One thread drops its reference, then the other one. -/
def oneByOne : List (Act Op) :=
  Act.call 0 (Op.testFree 0) :: List.replicate 6 (Act.run 0) ++
    Act.call 1 (Op.testFree 0) :: List.replicate 19 (Act.run 1)

theorem oneByOne_run : (machine.runUnder sharing oneByOne ⟨twoHolders, fun _ => []⟩).any fun s =>
    (s.mem.refInfo 8).refCnt = 0 ∧ s.mem.orig (.own 0 0) = 8 ∧ s.mem.log = [.dropped (.own 0 0),
      .dropped (.embedded 8 0), .freed 9, .dropped (.own 1 0), .freed 8] ∧ ∀ u < 2, s.loc u = [] := by
  decide +kernel

theorem freed_after_embedded_oneByOne : ∃ s : Sys Mem (List Frame),
    machine.Reach sharing Fresh s ∧ (∀ u, s.loc u = []) ∧ (s.mem.refInfo 8).refCnt = 0 ∧
      s.mem.log.count (.freed 8) = 1 := by
  obtain ⟨s, hs, hreach, hzero, horig, -, hloc⟩ :=
    Machine.reach_of_any Fresh fresh_twoHolders oneByOne_run
  have hidle := Machine.runUnder_rest (fun _ => rfl) (by decide) hs hloc
  have htally : 0 < tally s.mem.orig 8 := tally_pos (holds_of_reach hreach).1.sparse (by decide) horig
  exact ⟨s, hreach, hidle, hzero, (freed_after_embedded hreach hidle (by decide) htally hzero).1⟩

/-- At every moment the count of an object is the number of references to it that are not
dropped yet, and none is dropped twice. -/
theorem counts_undropped (h : machine.Reach sharing Fresh s) :
    (∀ ref, s.mem.log.count (.dropped ref) ≤ 1) ∧ ∀ o, o ≠ 0 → (s.mem.refInfo o).refCnt =
      tally (fun ref => if .dropped ref ∈ s.mem.log then 0 else s.mem.orig ref) o := by
  obtain ⟨hinv, _⟩ := holds_of_reach h
  refine ⟨fun ref => ?_, fun o ho => (hinv.counts.eq o ho).trans (congrArg (tally · o) ?_)⟩
  · rcases hinv.once ref with ⟨-, h0⟩ | ⟨-, -, h1⟩ <;> omega
  · funext ref
    rcases hinv.once ref with ⟨heq, h0⟩ | ⟨hv, -, h1⟩
    · rw [if_neg (List.count_eq_zero.mp h0), heq]
    · rw [if_pos (List.count_pos_iff.mp (h1 ▸ Nat.one_pos)), hv]

theorem counts_undropped_oneByOne : ∃ s : Sys Mem (List Frame), machine.Reach sharing Fresh s ∧
    s.mem.log.count (.dropped (.own 0 0)) ≤ 1 := by
  obtain ⟨s, _, hreach, -⟩ := Machine.reach_of_any Fresh fresh_twoHolders oneByOne_run
  exact ⟨s, hreach, (counts_undropped hreach).1 _⟩

/-- Both threads find the count 2 before either of them takes it down. -/
def bothShare : List (Act Op) :=
  [Act.call 0 (Op.testFree 0), Act.run 0, Act.run 0,
    Act.call 1 (Op.testFree 0), Act.run 1, Act.run 1] ++
    List.replicate 4 (Act.run 0) ++ List.replicate 6 (Act.run 1)

theorem bothShare_run : (machine.runUnder Machine.free bothShare ⟨twoHolders, fun _ => []⟩).any fun s =>
    (s.mem.refInfo 8).refCnt = 0 ∧ s.mem.log = [.dropped (.own 0 0), .dropped (.own 1 0), .freed 8] ∧
      (s.mem.refInfo 9).refCnt = 1 ∧ s.mem.orig (.own 0 0) = 8 ∧ s.mem.origCnt 8 = 1 ∧
      s.mem.orig (.embedded 8 0) = 9 ∧ ∀ u < 2, s.loc u = [] := by
  decide +kernel

/-- The block is freed, and the reference in it was never dropped. -/
theorem freed_without_embedded : ∃ s : Sys Mem (List Frame),
    machine.Reach Machine.free Fresh s ∧ (∀ u, s.loc u = []) ∧ (s.mem.refInfo 8).refCnt = 0 ∧
      s.mem.log.count (.freed 8) = 1 ∧ 0 < s.mem.origCnt 8 ∧ s.mem.orig (.embedded 8 0) = 9 ∧
      s.mem.log.count (.dropped (.embedded 8 0)) = 0 := by
  obtain ⟨s, hs, hreach, hzero, hlog, -, -, hcnt, horig, hloc⟩ :=
    Machine.reach_of_any Fresh fresh_twoHolders bothShare_run
  have hidle := Machine.runUnder_rest (fun _ => rfl) (by decide) hs hloc
  refine ⟨s, hreach, hidle, hzero, ?_, ?_, horig, ?_⟩
  · rw [hlog]
    decide
  · rw [hcnt]
    decide
  · rw [hlog]
    decide

end Runs

end ShmPcc.CxlTestFree
