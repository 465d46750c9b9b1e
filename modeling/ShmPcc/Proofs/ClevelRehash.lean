import ShmPcc.Proofs.ClevelStable

/-!
# The rehasher among other threads

Thread 0 knows where it is: the slot it is at and what it has in hand are its
own variables. The word in its hand stays in its slot, so the entry stays what
it was when the rehasher looked at it, and each of its accesses is one of the
moves.
-/

namespace ShmPcc.ClevelHash

open Prog

variable {K T : Type}

/-- The rehasher is at slot `p` with `h` in hand, and the chain is long enough
to lose its bottom. -/
structure Rehash (p : Slot) (h : Hold) (m : Mem K T) : Prop where
  src : m.src = p
  hold : m.hold = h
  long : p.level + 2 ≤ m.cur.firstLevel
  running : (0, .resize) ∈ m.ops

section Rehash

variable {H : Table K} {ok : Site → Mem K T → Prop} {m m' s : Mem K T} {p : Slot} {h : Hold}
  {ptr : Nat} {mt : Meta}

theorem rehash_stable : Stable H 0 (Rehash p h : Mem K T → Prop) := by
  refine stable_of fun hu _ hm hr => ?_
  obtain ⟨hs, hh⟩ := hm.rehasher hu
  exact ⟨hs.trans hr.src, hh.trans hr.hold, Nat.le_trans hr.long hm.later.first,
    hm.ops_kept hu hr.running⟩

theorem Rehash.last (hr : Rehash p h m) : m.cur.lastLevel = p.level := by
  rw [← hr.src]
  rfl

/-- The rehasher with a snapshot of the chain it works on. -/
structure Moving (p : Slot) (h : Hold) (ptr : Nat) (mt : Meta) (m : Mem K T) : Prop where
  at_ : Rehash p h m
  snap : Snap ptr mt m

theorem moving_stable : Stable H 0 (Moving p h ptr mt : Mem K T → Prop) :=
  fun _ _ hr hm => ⟨rehash_stable _ _ hr hm.at_, snap_stable _ _ hr hm.snap⟩

/-- The rehasher looked at the entry of the word in its hand. -/
structure Carrying (p : Slot) (w : Word) (kv : K × T) (ptr : Nat) (mt : Meta) (m : Mem K T) :
    Prop where
  moving : Moving p (.held w) ptr mt m
  entry : m.entries (addr w) = some kv

theorem carrying_stable {w : Word} {kv : K × T} :
    Stable H 0 (Carrying p w kv ptr mt : Mem K T → Prop) := by
  refine stable_of fun hu hi hm hc => ?_
  obtain ⟨hsrc, hne⟩ := hi.held w hc.moving.at_.hold
  have hptr := hm.entries_pointed hi (by rw [hsrc]; exact hne)
  rw [hsrc] at hptr
  obtain ⟨hs, hh⟩ := hm.rehasher hu
  have hr := hc.moving.at_
  exact ⟨⟨⟨hs.trans hr.src, hh.trans hr.hold, Nat.le_trans hr.long hm.later.first,
    hm.ops_kept hu hr.running⟩, hc.moving.snap.later hm.later⟩, hptr.trans hc.entry⟩

def Slot.next (p : Slot) : Slot := ⟨p.level, p.bucket, p.slot + 1⟩

/-- What one attempt to move the word leaves. -/
def Tried (p : Slot) (w : Word) (kv : K × T) (ptr : Nat) (mt : Meta) (done : Bool)
    (m : Mem K T) : Prop :=
  if done = true then Moving p.next .none ptr mt m else Carrying p w kv ptr mt m

theorem moveTo_wp {w : Word} {kv : K × T} {b j : Nat} (hb : H.IsBucket kv.1 mt.firstLevel b)
    (hj : j < assocNum) (hlt : p.level < mt.firstLevel) (hs : Carrying p w kv ptr mt s) :
    wp (ctx H ok 0) (fun done m => Tried p w kv ptr mt done m)
      (moveTo w p ⟨mt.firstLevel, b, j⟩) s := by
  have hfalse : ∀ m : Mem K T, Carrying p w kv ptr mt m → wp (ctx H ok 0)
      (fun done m => Tried p w kv ptr mt done m) (pure false) m := fun m hm =>
    wp_ret_of carrying_stable hm fun _ _ h => h
  refine wp_read_of carrying_stable hs fun m hi hm => ?_
  split
  · next hz =>
    refine wp_casSlot carrying_stable hm ?_ fun m' _ hm' _ => hfalse m' hm'
    intro m₁ hi₁ hm₁ _ hempty
    have hat := hm₁.moving.at_
    have hcopy : Move H 0 m₁ { m₁ with
        slots := Function.update m₁.slots ⟨mt.firstLevel, b, j⟩ w
        hold := .copied w ⟨mt.firstLevel, b, j⟩ } := by
      refine .copy w _ kv.1 kv.2 rfl hat.running hat.hold ?_ hm₁.entry ⟨hb, hj⟩ ?_
        (hm₁.moving.snap.bounds hi₁).2.2
      · exact hi₁.placed.addr_eq_zero.mp (by rw [hempty]; exact hz)
      · rw [hat.last]
        exact hlt
    refine ⟨hcopy, ?_⟩
    have hcopied : Moving p (.copied w ⟨mt.firstLevel, b, j⟩) ptr mt { m₁ with
        slots := Function.update m₁.slots ⟨mt.firstLevel, b, j⟩ w
        hold := .copied w ⟨mt.firstLevel, b, j⟩ } :=
      ⟨⟨hat.src, rfl, hat.long, hat.running⟩, hm₁.moving.snap⟩
    refine wp_move moving_stable hcopied fun m₂ hi₂ hm₂ _ => ?_
    have hat₂ := hm₂.at_
    have hclear := Move.clear (H := H) w _ rfl hat₂.hold
    have hcur : m₂.cursor = p.slot := by rw [← hat₂.src]; rfl
    rw [hat₂.src, hcur] at hclear
    refine ⟨hclear, ?_⟩
    refine wp_ret_of moving_stable ?_
      fun _ _ h => h
    refine ⟨⟨?_, rfl, hat₂.long, hat₂.running⟩, hm₂.snap⟩
    rw [Slot.next, ← hat₂.src]
    rfl
  · exact hfalse m hm

theorem moveUp_wp {w : Word} {kv : K × T} (hlt : p.level < mt.firstLevel) : ∀ n j s,
    j + n ≤ assocNum → Carrying p w kv ptr mt s →
    wp (ctx H ok 0) (fun done m => Tried p w kv ptr mt done m)
      (moveUp w p mt.firstLevel (H.fIdx kv.1 mt.firstLevel) (H.sIdx kv.1 mt.firstLevel) n j) s := by
  intro n
  induction n with
  | zero =>
    exact fun j s _ hs => wp_ret_of carrying_stable hs fun _ _ h => h
  | succ n ih =>
    intro j s hj hs
    have htrue : ∀ m : Mem K T, Moving p.next .none ptr mt m → wp (ctx H ok 0)
        (fun done m => Tried p w kv ptr mt done m) (pure true) m := fun m hm =>
      wp_ret_of moving_stable hm fun _ _ h => h
    refine wp_bind (wp_mono ?_ (moveTo_wp (.inl rfl) (by omega) hlt hs))
    intro done m _ hm
    cases done with
    | true => exact htrue m hm
    | false =>
      refine wp_bind (wp_mono ?_ (moveTo_wp (.inr rfl) (by omega) hlt hm))
      intro done m _ hm
      cases done with
      | true => exact htrue m hm
      | false => exact ih (j + 1) m (by omega) hm

/-- What the pass over a bucket leaves: everything passed, or a word in hand for
which there was no room. -/
def Bucketed (p : Slot) (b : Nat) (ptr : Nat) (mt : Meta) (done : Bool) (m : Mem K T) : Prop :=
  if done = true then Moving ⟨p.level, b, assocNum⟩ .none ptr mt m
  else ∃ q w, q.level = p.level ∧ q.bucket = b ∧ Moving q (.held w) ptr mt m

theorem bucketed_false_stable {b : Nat} :
    Stable H 0 fun m : Mem K T => ∃ q w, q.level = p.level ∧ q.bucket = b ∧
      Moving q (.held w) ptr mt m := by
  rintro m m' hr ⟨q, w, hl, hb, hm⟩
  exact ⟨q, w, hl, hb, moving_stable _ _ hr hm⟩

theorem rehashBucket_wp {bl b : Nat} (hlt : bl < mt.firstLevel) : ∀ n j s, j + n = assocNum →
    Moving ⟨bl, b, j⟩ .none ptr mt s →
    wp (ctx H ok 0) (fun done m => Bucketed ⟨bl, b, 0⟩ b ptr mt done m)
      (rehashBucket H bl mt.firstLevel b n j) s := by
  intro n
  induction n with
  | zero =>
    intro j s hj hs
    obtain rfl : j = assocNum := hj
    exact wp_ret_of moving_stable hs fun _ _ h => h
  | succ n ih =>
    intro j s hj hs
    refine wp_rmw_move moving_stable hs fun m hi hm _ => ?_
    have hat := hm.at_
    have hcur : m.cursor = j := congrArg Slot.slot hat.src
    by_cases hz : addr (m.slots ⟨bl, b, j⟩) = 0
    · have hskip := Move.skip (H := H) (t := 0) (m := m) rfl
        (by rw [hat.src]; exact hi.placed.addr_eq_zero.mp hz) hat.hold
      rw [hcur] at hskip
      simp only [if_pos hz]
      refine ⟨hskip, ih (j + 1) _ (by omega) ⟨⟨?_, hat.hold, hat.long, hat.running⟩, hm.snap⟩⟩
      have := hat.src
      simp only [Mem.src, Slot.mk.injEq] at this ⊢
      exact ⟨this.1, this.2.1, trivial⟩
    · have hhold := Move.hold (H := H) (m := m) (m.slots ⟨bl, b, j⟩) rfl (by rw [hat.src])
        (fun h => hz (by rw [h, addr_zero])) hat.hold
      simp only [if_neg hz]
      refine ⟨hhold, ?_⟩
      have hheld : Moving ⟨bl, b, j⟩ (.held (m.slots ⟨bl, b, j⟩)) ptr mt
          { m with hold := .held (m.slots ⟨bl, b, j⟩) } :=
        ⟨⟨hat.src, rfl, hat.long, hat.running⟩, hm.snap⟩
      refine wp_loadEntry moving_stable hheld fun m₁ kv _ hm₁ he => ?_
      refine wp_bind (wp_mono ?_ (moveUp_wp hlt assocNum 0 m₁ (by omega) ⟨hm₁, he⟩))
      intro done m₂ _ hm₂
      cases done with
      | true => exact ih (j + 1) m₂ (by omega) hm₂
      | false =>
        exact wp_ret_of bucketed_false_stable
          ⟨_, _, rfl, rfl, hm₂.moving⟩ fun _ _ h => h

/-! ## Dropping the bottom level -/

theorem free_stable : Stable H 0 fun m : Mem K T => m.hold.isCopied = false :=
  stable_of fun hu _ hm h => by rw [(hm.rehasher hu).2]; exact h

theorem casMeta_drop {bl : Nat} {flag : Bool} (hb : p = ⟨bl, H.capacity bl, 0⟩)
    (hs : Moving p .none ptr mt s) :
    wp (ctx H ok 0)
      (fun done m => m.hold.isCopied = false ∧ (done = false → Rehash p .none m))
      (casMeta ptr ⟨mt.firstLevel, bl + 1, flag⟩ fun m => { m with expandBucket := 0 }) s := by
  refine wp_move moving_stable hs fun m hi hm _ => ?_
  have hat := hm.at_
  by_cases hptr : m.metaPtr = ptr
  · have hcur := hm.snap.cur hptr
    have hlast : m.cur.lastLevel = bl := by rw [hat.last, hb]
    have hbucket : m.expandBucket = H.capacity bl := by
      have := congrArg Slot.bucket hat.src
      rwa [hb] at this
    have hcursor : m.cursor = 0 := by
      have := congrArg Slot.slot hat.src
      rwa [hb] at this
    have hlong := hat.long
    rw [hb] at hlong
    have hdrop := Move.drop flag rfl hat.hold hcursor
      (by rw [hlast]; exact hbucket) (by rw [hlast]; exact hlong)
    rw [hcur, ← hcur, hlast] at hdrop
    simp only [if_pos hptr, beq_iff_eq.mpr hptr]
    rw [← hcur]
    exact ⟨hdrop, wp_ret_of free_stable (by rw [hat.hold]; rfl)
      fun _ _ h => ⟨h, fun h => by cases h⟩⟩
  · simp only [if_neg hptr, beq_eq_false_iff_ne.mpr hptr]
    exact ⟨.stay, wp_ret_of rehash_stable hat fun _ _ h =>
      ⟨by rw [h.hold]; rfl, fun _ => h⟩⟩

theorem dropLoop_wp {bl : Nat} (hb : p = ⟨bl, H.capacity bl, 0⟩) : ∀ n ptr mt s,
    Moving p .none ptr mt s → mt.lastLevel ≤ mt.firstLevel →
    wp (ctx H ok 0) (fun _ m => m.hold.isCopied = false) (dropLoop bl n ptr mt) s := by
  intro n
  induction n with
  | zero => exact fun _ _ _ _ _ => trivial
  | succ n ih =>
    intro ptr mt s hs hle
    refine wp_bind (wp_mono ?_ (wp_quiet moving_stable hs
      (countLevels_wp mt.span mt.lastLevel 0 s hs.snap hle)))
    rintro levelsLeft m - ⟨-, hm⟩
    refine wp_read_of moving_stable hm fun m hi hm => ?_
    have hup : bl + 1 < m.levels := by
      have := hm.at_.long
      have := hi.top
      rw [hb] at *
      dsimp only at *
      omega
    rw [if_pos hup]
    refine wp_bind (wp_mono ?_ (casMeta_drop hb hm))
    intro done m _ hm
    cases done with
    | true => exact wp_ret_of free_stable hm.1 fun _ _ h => h
    | false =>
      refine wp_read_of rehash_stable (hm.2 rfl) fun m hi hm => ?_
      exact ih _ _ m ⟨hm, snap_cur m⟩ (Nat.le_of_lt hi.chain)

/-! ## A round -/

/-- The rehasher before it reads a bucket again. -/
structure Ready (b : Nat) (m : Mem K T) : Prop where
  bucket : m.expandBucket = b
  long : m.cur.lastLevel + 2 ≤ m.cur.firstLevel
  free : m.hold.isCopied = false
  running : (0, .resize) ∈ m.ops

theorem Ready.of_src {b : Nat} (hr : Ready b m) (hsrc : m'.src = m.src) (hhold : m'.hold = m.hold)
    (hl : Later m m') (hrun : (0, .resize) ∈ m'.ops) : Ready b m' := by
  have hlast : m'.cur.lastLevel = m.cur.lastLevel := congrArg Slot.level hsrc
  refine ⟨(congrArg Slot.bucket hsrc).trans hr.bucket, ?_, by rw [hhold]; exact hr.free, hrun⟩
  have := hr.long
  have := hl.first
  omega

theorem ready_stable {b : Nat} : Stable H 0 (Ready b : Mem K T → Prop) :=
  stable_of fun hu _ hm h => by
    obtain ⟨hs, hh⟩ := hm.rehasher hu
    exact h.of_src hs hh hm.later (hm.ops_kept hu h.running)

theorem rehashLoop_wp {b : Nat} : ∀ n s, Ready b s →
    wp (ctx H ok 0) (fun _ m => m.hold.isCopied = false) (rehashLoop H b n) s := by
  intro n
  induction n with
  | zero => exact fun _ _ => trivial
  | succ n ih =>
    intro s hs
    refine wp_rmw_move ready_stable hs fun m hi hm _ => ⟨.restart rfl hm.free, ?_⟩
    have hmove : Moving ⟨m.cur.lastLevel, b, 0⟩ .none m.metaPtr m.cur
        { m with cursor := 0, hold := .none } := by
      refine ⟨⟨?_, rfl, hm.long, hm.running⟩, snap_cur m⟩
      rw [Mem.src, ← hm.bucket]
      rfl
    have hlt : m.cur.lastLevel < m.cur.firstLevel := hi.chain
    refine wp_bind (wp_mono ?_ (rehashBucket_wp hlt assocNum 0 _
      (Nat.zero_add _) hmove))
    intro done m₁ _ hm₁
    cases done with
    | true =>
      have hm₁ : Moving ⟨m.cur.lastLevel, b, assocNum⟩ .none m.metaPtr m.cur m₁ := hm₁
      refine wp_rmw_move moving_stable hm₁ fun m₂ _ hm₂ _ => ?_
      have hat := hm₂.at_
      have hpass := Move.pass (H := H) (t := 0) (m := m₂) rfl hat.hold
        (congrArg Slot.slot hat.src)
      rw [show m₂.expandBucket = b from congrArg Slot.bucket hat.src] at hpass
      refine ⟨hpass, ?_⟩
      have hm₃ : Moving ⟨m.cur.lastLevel, b + 1, 0⟩ .none m.metaPtr m.cur
          { m₂ with expandBucket := b + 1, cursor := 0 } := by
        refine ⟨⟨?_, hat.hold, hat.long, hat.running⟩, hm₂.snap⟩
        rw [← show m₂.cur.lastLevel = m.cur.lastLevel from congrArg Slot.level hat.src]
        rfl
      split
      · next hcap =>
        rw [hcap] at hm₃ ⊢
        exact dropLoop_wp rfl H.retries _ _ _ hm₃ (Nat.le_of_lt hi.chain)
      · exact wp_ret_of free_stable (by rw [hat.hold]; rfl) fun _ _ h => h
    | false =>
      obtain ⟨q, w, hl, hb, hq⟩ := hm₁
      have hready : Ready b m₁ := by
        have hlast := hq.at_.last
        have hlong := hq.at_.long
        refine ⟨?_, by omega, by rw [hq.at_.hold]; rfl, hq.at_.running⟩
        rw [← hb, ← hq.at_.src]
        rfl
      refine wp_bind (wp_mono ?_ (wp_expanding ready_stable (fun _ he h =>
        h.of_src he.src he.hold he.later (by rw [he.ops]; exact h.running)) hready
        (expand_wp hq.snap)))
      rintro - m₂ - ⟨-, hm₂⟩
      exact ih m₂ hm₂

theorem resize_wp {s : Mem K T} (hfree : s.hold.isCopied = false) (hs : (0, .resize) ∈ s.ops) :
    wp (ctx H ok 0) (fun _ m => m.hold.isCopied = false) (resize H) s := by
  have hst : Stable H 0 fun m : Mem K T => m.hold.isCopied = false ∧ (0, .resize) ∈ m.ops :=
    stable_of fun hu _ hm h => ⟨by rw [(hm.rehasher hu).2]; exact h.1, hm.ops_kept hu h.2⟩
  refine wp_read_of hst ⟨hfree, hs⟩ fun m hi hm => ?_
  have hst' : Stable H 0 fun m' : Mem K T => Snap m.metaPtr m.cur m' ∧ m'.src = m.src ∧
      m'.hold.isCopied = false ∧ (0, .resize) ∈ m'.ops :=
    stable_of fun hu _ hm h => ⟨h.1.later hm.later, (hm.rehasher hu).1.trans h.2.1,
      by rw [(hm.rehasher hu).2]; exact h.2.2.1, hm.ops_kept hu h.2.2.2⟩
  refine wp_bind (wp_mono ?_ (wp_quiet hst'
    ⟨snap_cur m, rfl, hm⟩ (countLevels_wp m.cur.span m.cur.lastLevel 1 m (snap_cur m)
      (Nat.le_of_lt hi.chain))))
  rintro nLevels m₁ - ⟨rfl, hm₁⟩
  dsimp only
  split
  · exact wp_ret_of free_stable hm₁.2.2.1 fun _ _ h => h
  · next hlevels =>
    refine wp_read_of hst' hm₁ fun m₂ hi₂ hm₂ => ?_
    refine rehashLoop_wp H.retries m₂ ⟨rfl, ?_, hm₂.2.2.1, hm₂.2.2.2⟩
    have hlast : m₂.cur.lastLevel = m.cur.lastLevel := congrArg Slot.level hm₂.2.1
    have := (hm₂.1.bounds hi₂).2.2
    have := hi.chain
    omega

end Rehash

end ShmPcc.ClevelHash
