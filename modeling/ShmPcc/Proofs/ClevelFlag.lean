import ShmPcc.Proofs.ClevelRuns

/-!
# When `is_resizing` is set

What is published, in runs of all operations without any restriction: `expand` adds the
next level or publishes the same levels once more, both times as being resized, and the
rehasher drops the bottom level and computes the flag from the levels that are left. All
other accesses leave the published chain alone, and `Same` says so of the code of each
operation.

The flag is right as long as no `expand` publishes the levels once more that are not
being resized: this is what `expand` does when it finds the next level linked by another
thread that has not published it yet.
-/

namespace ShmPcc.ClevelHash

open Function Prog

variable {K T : Type}

/-! ## Code that publishes nothing -/

/-- The published chain and the links are as they were, and no call is made or returns. -/
structure Same (m m' : Mem K T) : Prop where
  ptr : m'.metaPtr = m.metaPtr
  metas : m'.metas = m.metas
  levels : m'.levels = m.levels
  ops : m'.ops = m.ops
  calls : m'.calls = m.calls

theorem Same.refl (m : Mem K T) : Same m m := ⟨rfl, rfl, rfl, rfl, rfl⟩

theorem Same.cur {m m' : Mem K T} (h : Same m m') : m'.cur = m.cur := by
  rw [Mem.cur, Mem.cur, h.ptr, h.metas]

section Code

variable {H : Table K} {t : Nat} {key : K}

theorem same_of_loads {α : Type} {p : Code K T α} (h : p.Within Loads) : p.Within fun _ => Same :=
  h.mono fun _ m _ hl => hl.2 ▸ .refl m

theorem load_same {α : Type} {l : Site} {f : Mem K T → α} (hl : l.isLoad = true) :
    (Prog.read l f).Within fun _ => Same :=
  same_of_loads (load_loads hl)

theorem casSlot_same {l : Site} {q : Slot} {e d : Word} {note : Mem K T → Mem K T}
    (hnote : ∀ m, Same m (note m)) : (casSlot l q e d note).Within fun _ => Same := by
  intro m
  refine ⟨?_, trivial⟩
  dsimp only
  split
  · have h := hnote { m with slots := update m.slots q d }
    exact ⟨h.ptr, h.metas, h.levels, h.ops, h.calls⟩
  · exact .refl m

theorem newEntry_same {a : Word} {kv : K × T} : (newEntry t a kv).Within fun _ => Same := by
  intro m
  constructor
  · dsimp only
    split
    · exact ⟨rfl, rfl, rfl, rfl, rfl⟩
    · exact .refl m
  · dsimp only
    split <;> trivial

theorem deleteEntry_same {a : Word} : (deleteEntry a : Code K T Unit).Within fun _ => Same :=
  fun _ => ⟨⟨rfl, rfl, rfl, rfl, rfl⟩, trivial⟩

variable [DecidableEq K]

theorem delDup_same {p1 p2 : Slot} {e1 e2 : Word} :
    (delDup t p1 p2 e1 e2 : Code K T Unit).Within fun _ => Same := by
  refine .bind (load_same rfl) fun w1 => ?_
  split
  · trivial
  · refine .bind (load_same rfl) fun w2 => ?_
    split
    · trivial
    · split
      · split
        · exact .bind (casSlot_same Same.refl) fun _ => trivial
        · refine .bind (same_of_loads loadEntry_loads) fun kv1 => .bind (same_of_loads loadEntry_loads) fun kv2 => ?_
          split
          · refine .bind (casSlot_same fun _ => ⟨rfl, rfl, rfl, rfl, rfl⟩) fun done => ?_
            split
            · exact deleteEntry_same
            · trivial
          · trivial
      · trivial

theorem same_walks : Walks fun _ (p : Code K T _) => p.Within fun _ => Same :=
  ⟨same_of_loads, .bind⟩

theorem findLoop_same {query : Query K} : ∀ n ptr mt last,
    (findLoop H t query n ptr mt last : Code K T Find).Within fun _ => Same :=
  same_walks.findLoop fun _ _ _ _ => delDup_same

theorem eraseSlot_same {ptr i : Nat} {q : Slot} : (eraseSlot H t key ptr i q : Code K T Bool).Within
    fun _ => Same := by
  refine .bind (load_same rfl) fun w => ?_
  split
  · refine .bind (same_of_loads loadEntry_loads) fun kv => ?_
    split
    · refine .bind (casSlot_same fun _ => ⟨rfl, rfl, rfl, rfl, rfl⟩) fun done => ?_
      split
      · refine .bind deleteEntry_same fun _ => .bind (load_same rfl) fun tmp => ?_
        split
        · trivial
        · split
          · exact .bind (same_of_loads loadNeighbour_loads) fun _ => trivial
          · trivial
      · trivial
    · trivial
  · trivial

theorem erase_same : (erase H t key : Code K T _).Within fun _ => Same :=
  .bind (load_same rfl) fun _ => same_walks.eraseLoop (fun _ _ _ => eraseSlot_same) _ _ _ _

theorem updateLoop_same {kv created : Word} : ∀ n ptr mt b,
    (updateLoop H t key kv created n ptr mt b : Code K T _).Within fun _ => Same := by
  intro n
  induction n with
  | zero => exact fun _ _ _ => trivial
  | succ n ih =>
    intro ptr mt b
    refine .bind (findLoop_same _ _ _ _) fun f => ?_
    split
    · split
      · trivial
      · split
        · trivial
        · refine .bind (casSlot_same fun _ => ⟨rfl, rfl, rfl, rfl, rfl⟩) fun done => ?_
          split
          · refine .bind (load_same rfl) fun tmp => .bind (same_of_loads updateRedo_loads) fun redo => ?_
            split
            · exact ih _ _ _
            · trivial
          · exact ih _ _ _
    · refine .bind ?_ fun _ => trivial
      split
      · exact deleteEntry_same
      · trivial

theorem genericUpdate_same {value : T} {kv : Word} : (genericUpdate H t key value kv).Within fun _ => Same :=
  .bind newEntry_same fun _ => .bind (load_same rfl) fun _ => updateLoop_same _ _ _ _

omit [DecidableEq K]

theorem moveTo_same {w : Word} {src dst : Slot} : (moveTo w src dst : Code K T Bool).Within fun _ => Same := by
  refine .bind (load_same rfl) fun tmp => ?_
  split
  · refine .bind (casSlot_same fun _ => ⟨rfl, rfl, rfl, rfl, rfl⟩) fun done => ?_
    split
    · exact .bind (fun _ => ⟨⟨rfl, rfl, rfl, rfl, rfl⟩, trivial⟩) fun _ => trivial
    · trivial
  · trivial

theorem moveUp_same {w : Word} {src : Slot} {tl b1 b2 : Nat} : ∀ n j,
    (moveUp w src tl b1 b2 n j : Code K T Bool).Within fun _ => Same := by
  intro n
  induction n with
  | zero => exact fun _ => trivial
  | succ n ih =>
    intro j
    refine .bind moveTo_same fun done => ?_
    split
    · trivial
    · refine .bind moveTo_same fun done => ?_
      split
      · trivial
      · exact ih _

theorem rehashBucket_same {bl tl b : Nat} : ∀ n j,
    (rehashBucket H bl tl b n j : Code K T Bool).Within fun _ => Same := by
  intro n
  induction n with
  | zero => exact fun _ => trivial
  | succ n ih =>
    intro j
    refine .bind (fun m => ⟨?_, trivial⟩) fun w => ?_
    · dsimp only
      split <;> exact ⟨rfl, rfl, rfl, rfl, rfl⟩
    · split
      · exact ih _
      · refine .bind (same_of_loads loadEntry_loads) fun kv => .bind (moveUp_same _ _) fun done => ?_
        split
        · exact ih _
        · trivial

end Code

/-! ## What is published -/

/-- The rehasher leaves its variables alone, unless there is a level to spare. -/
def Rests (m m' : Mem K T) : Prop :=
  m'.cursor = m.cursor ∧ m'.hold = m.hold ∧ m'.expandBucket = m.expandBucket ∨
    m.cur.lastLevel + 2 ≤ m.cur.firstLevel

/-- What one access of thread `t` makes of the published chain and the links. -/
inductive Publish (t : Nat) (m : Mem K T) : Mem K T → Prop where
  | same {m' : Mem K T} (h : Same m m') (hrest : t = 0 → Rests m m') : Publish t m m'
  | call (ops : List (Nat × Op K T)) (calls : K → List (Op K T)) :
      Publish t m { m with ops := ops, calls := calls }
  | link : Publish t m { m with levels := m.levels + 1 }
  | grow (first : Nat) (hfirst : first = m.cur.firstLevel ∨
        first = m.cur.firstLevel + 1 ∧ first < m.levels) :
      Publish t m { m with
        metaPtr := m.metaPtr + 1
        metas := update m.metas (m.metaPtr + 1) ⟨first, m.cur.lastLevel, true⟩ }
  | drop (ht : t = 0) (hlong : m.cur.lastLevel + 2 ≤ m.cur.firstLevel) : Publish t m { m with
        metaPtr := m.metaPtr + 1
        metas := update m.metas (m.metaPtr + 1)
          ⟨m.cur.firstLevel, m.cur.lastLevel + 1, m.cur.firstLevel - m.cur.lastLevel != 2⟩
        expandBucket := 0 }

/-- Published chains have two levels or more, and the top is linked. -/
structure Chained (m : Mem K T) : Prop where
  top : m.cur.firstLevel < m.levels
  snapshots : ∀ i, i ≤ m.metaPtr → (m.metas i).lastLevel < (m.metas i).firstLevel ∧
    (m.metas i).firstLevel ≤ m.cur.firstLevel

section Publish

variable {H : Table K} {ok : Site → Mem K T → Prop} {t u : Nat} {m m' s : Mem K T}
  {A : Mem K T → Prop} {ptr : Nat} {mt : Meta}

theorem publish_refl (t : Nat) (m : Mem K T) : Publish t m m :=
  .same (.refl m) fun _ => .inl ⟨rfl, rfl, rfl⟩

theorem Publish.later (h : Publish t m m') : Later m m' := by
  cases h with
  | same h => exact ⟨h.ptr.ge, fun _ _ => by rw [h.metas], h.levels.ge, by rw [h.cur], by rw [h.cur]⟩
  | call ops calls => exact ⟨Nat.le_refl _, fun _ _ => rfl, Nat.le_refl _, Nat.le_refl _, Nat.le_refl _⟩
  | link => exact ⟨Nat.le_refl _, fun _ _ => rfl, Nat.le_succ _, Nat.le_refl _, Nat.le_refl _⟩
  | grow first hfirst =>
    have hle : m.cur.firstLevel ≤ first := by omega
    exact .publish ⟨first, _, true⟩ (Nat.le_refl _) hle _
  | drop ht hlong => exact .publish ⟨_, _, _⟩ (Nat.le_succ _) (Nat.le_refl _) 0

theorem Chained.publish (hi : Chained m) (mt : Meta) (hlt : mt.lastLevel < mt.firstLevel)
    (hfirst : m.cur.firstLevel ≤ mt.firstLevel) (htop : mt.firstLevel < m.levels) (b : Nat) :
    Chained { m with
      metaPtr := m.metaPtr + 1
      metas := update m.metas (m.metaPtr + 1) mt
      expandBucket := b } := by
  refine ⟨by rw [publish_cur]; exact htop, fun i h => ?_⟩
  rw [publish_cur]
  dsimp only at h ⊢
  by_cases hi' : i = m.metaPtr + 1
  · rw [hi', update_self]
    exact ⟨hlt, Nat.le_refl _⟩
  · rw [update_of_ne hi']
    have := hi.snapshots i (by omega)
    omega

theorem Chained.chain (hi : Chained m) : m.cur.lastLevel < m.cur.firstLevel :=
  (hi.snapshots _ (Nat.le_refl _)).1

theorem Publish.inv (h : Publish t m m') (hi : Chained m) : Chained m' := by
  have hchain := hi.chain
  have htop := hi.top
  cases h with
  | same h =>
    refine ⟨by rw [h.cur, h.levels]; exact hi.top, fun i hle => ?_⟩
    rw [h.cur, h.metas]
    rw [h.ptr] at hle
    exact hi.snapshots i hle
  | call ops calls => exact ⟨hi.top, hi.snapshots⟩
  | link => exact ⟨Nat.lt_succ_of_lt hi.top, hi.snapshots⟩
  | grow first hfirst =>
    have hle : m.cur.firstLevel ≤ first ∧ first < m.levels := by omega
    exact hi.publish ⟨first, _, true⟩ (Nat.lt_of_lt_of_le hchain hle.1) hle.1 hle.2 _
  | drop ht hlong => exact hi.publish ⟨_, _, _⟩ hlong (Nat.le_refl _) htop _

theorem Publish.last (h : Publish t m m') (ht : t ≠ 0) : m'.cur.lastLevel = m.cur.lastLevel := by
  cases h with
  | same h => rw [h.cur]
  | call ops calls => rfl
  | link => rfl
  | grow first hfirst => rw [publish_cur]
  | drop h0 hlong => exact absurd h0 ht

/-- An access in the code of thread `t`. -/
structure Access (t : Nat) (m m' : Mem K T) : Prop where
  publish : Publish t m m'
  ops : m'.ops = m.ops
  calls : m'.calls = m.calls

theorem Same.access (h : Same m m') (hrest : t = 0 → Rests m m') : Access t m m' :=
  ⟨.same h hrest, h.ops, h.calls⟩

theorem access_refl (t : Nat) (m : Mem K T) : Access t m m := ⟨publish_refl t m, rfl, rfl⟩

def flagCtx (ok : Site → Mem K T → Prop) (t : Nat) : Ctx Site (Mem K T) :=
  (Ctx.pool Chained Publish publish_refl ok t).guarBy (Access t) (access_refl t)

/-- What the others keep, and what the thread itself keeps unless it drops a level. -/
def Kept (t : Nat) (A : Mem K T → Prop) : Prop :=
  ∀ u m m', u ≠ t ∨ u ≠ 0 → Publish u m m' → A m → A m'

theorem Kept.others (hA : Kept t A) (hr : Others Chained Publish t m m') (h0 : A m) : A m' := by
  refine Others.kept ?_ hr h0
  exact fun hu _ _ hm => hA _ _ _ (.inl hu) hm

theorem Kept.stable (hA : Kept t A) : (flagCtx ok t).Stable A := fun _ _ => hA.others

theorem Kept.own (hA : Kept t A) (h : Publish 1 m m') (h0 : A m) : A m' :=
  hA 1 _ _ (.inr Nat.one_ne_zero) h h0

theorem Kept.and {B : Mem K T → Prop} (hA : Kept t A) (hB : Kept t B) : Kept t fun m => A m ∧ B m :=
  fun _ _ _ hu hm h => ⟨hA _ _ _ hu hm h.1, hB _ _ _ hu hm h.2⟩

theorem kept_snap : Kept t (Snap ptr mt : Mem K T → Prop) := fun _ _ _ _ hm h => h.later hm.later

variable {α : Type} {p : Code K T α}

/-- A program that publishes nothing; the rehasher runs it when there is a level to spare. -/
theorem wp_same (hp : p.Within fun _ => Same) (hA : Kept t A)
    (hspare : t = 0 → ∀ m, A m → m.cur.lastLevel + 2 ≤ m.cur.firstLevel) (h0 : A s) :
    wp (flagCtx ok t) (fun _ => A) p s := by
  induction p generalizing s with
  | ret a => exact fun s' hr _ => hA.others hr h0
  | halt => trivial
  | step l u n ih =>
    intro m hr hi _
    obtain ⟨hu, hn⟩ := hp m
    have ha := hA.others hr h0
    have hm : Access t m (u m) := hu.access fun h => .inr (hspare h m ha)
    exact ⟨hm.publish.inv hi, hm, ih m hn (hA.own (.same hu nofun) ha)⟩

theorem wp_loads (hp : p.Within Loads) (hA : Kept t A) (h0 : A s) :
    wp (flagCtx ok t) (fun _ => A) p s := by
  have h : wpc (flagCtx ok t) (fun _ _ => True) (fun _ => A) p s := by
    refine wpc_within hA.stable (fun hi h => ?_) (fun _ h ha => ?_) hp h0
    · rw [h.2]
      exact ⟨trivial, hi, access_refl t _⟩
    · rw [h.2]
      exact ha
  exact wp_of_wpc h

theorem wp_load {β : Type} {l : Site} {f : Mem K T → α} {k : α → Code K T β}
    {Q : β → Mem K T → Prop} (hA : Kept t A) (h0 : A s)
    (h : ∀ m, Chained m → A m → wp (flagCtx ok t) Q (k (f m)) m) :
    wp (flagCtx ok t) Q (Prog.read l f >>= k) s :=
  wp_read_of hA.stable h0 h

theorem wp_then {β : Type} {k : α → Code K T β} {Q : β → Mem K T → Prop}
    (hp : p.Within fun _ => Same) (hA : Kept t A)
    (hspare : t = 0 → ∀ m, A m → m.cur.lastLevel + 2 ≤ m.cur.firstLevel) (h0 : A s)
    (h : ∀ a m, Chained m → A m → wp (flagCtx ok t) Q (k a) m) :
    wp (flagCtx ok t) Q (p >>= k) s :=
  wp_bind (wp_mono (fun a m hi ha => h a m hi ha) (wp_same hp hA hspare h0))

theorem wp_done {a : α} (hA : Kept t A) (h0 : A s) : wp (flagCtx ok t) (fun _ => A) (.ret a) s :=
  wp_ret_of hA.stable h0 fun _ _ h => h

/-! ### `expand` -/

theorem casMeta_flag {first : Nat} (hA : Kept t A) (h0 : A s) (hs : Snap ptr mt s)
    (hfirst : first = mt.firstLevel ∨ first = mt.firstLevel + 1 ∧ first < s.levels) :
    wp (flagCtx ok t) (fun _ => A) (casMeta ptr ⟨first, mt.lastLevel, true⟩ id) s := by
  have hup : Kept t fun m : Mem K T =>
      first = mt.firstLevel ∨ first = mt.firstLevel + 1 ∧ first < m.levels := by
    intro u m m' _ hm h
    have := hm.later.levels
    omega
  have hst : Kept t fun m => A m ∧ Snap ptr mt m ∧
      (first = mt.firstLevel ∨ first = mt.firstLevel + 1 ∧ first < m.levels) := hA.and (kept_snap.and hup)
  refine wp_step_of hst.stable ⟨h0, hs, hfirst⟩ fun m hi hm _ => ?_
  obtain ⟨ha, hsnap, hfirst⟩ := hm
  have hgrow : ∀ u, Access u m (if m.metaPtr = ptr then { m with
      metaPtr := m.metaPtr + 1
      metas := update m.metas (m.metaPtr + 1) ⟨first, mt.lastLevel, true⟩ } else m) := by
    intro u
    split
    · next hptr =>
      rw [← hsnap.cur hptr] at hfirst ⊢
      exact ⟨.grow first hfirst, rfl, rfl⟩
    · exact access_refl u m
  exact ⟨(hgrow t).publish.inv hi, hgrow t, wp_done hA (hA.own (hgrow 1).publish ha)⟩

theorem publishLoop_flag {newCapacity : Nat} (hA : Kept t A) : ∀ n ptr mt s, A s → Snap ptr mt s →
    wp (flagCtx ok t) (fun _ => A) (publishLoop H newCapacity n ptr mt) s := by
  intro n
  induction n with
  | zero => exact fun _ _ _ _ _ => trivial
  | succ n ih =>
    intro ptr mt s h0 hs
    have hrest : ∀ first m, A m → Snap ptr mt m →
        (first = mt.firstLevel ∨ first = mt.firstLevel + 1 ∧ first < m.levels) →
        wp (flagCtx ok t) (fun _ => A)
          (casMeta ptr ⟨first, mt.lastLevel, true⟩ id >>= fun done =>
            if done then pure () else loadMeta >>= fun mt' =>
              if newCapacity ≤ H.capacity mt'.2.firstLevel ∧ mt'.2.isResizing = true
              then pure () else publishLoop H newCapacity n mt'.1 mt'.2) m := by
      intro first m ha hm hfirst
      refine wp_bind (wp_mono (fun done m _ ha => ?_) (casMeta_flag hA ha hm hfirst))
      cases done with
      | true => exact wp_done hA ha
      | false =>
        refine wp_load hA ha fun m _ ha => ?_
        split
        · exact wp_done hA ha
        · exact ih _ _ _ ha (snap_cur m)
    rw [publishLoop]
    split
    · refine wp_bind (wp_ret fun m hr _ => ?_)
      obtain ⟨ha, hm⟩ := (hA.and kept_snap).others hr ⟨h0, hs⟩
      exact hrest _ m ha hm (.inl rfl)
    · refine wp_load (hA.and kept_snap) ⟨h0, hs⟩ fun m _ hm => ?_
      split
      · trivial
      · next first heq =>
        split at heq
        · next hlt =>
          injection heq with heq
          subst heq
          exact hrest _ m hm.1 hm.2 (.inr ⟨rfl, hlt⟩)
        · cases heq

theorem expand_flag (hA : Kept t A) (h0 : A s) (hs : Snap ptr mt s) :
    wp (flagCtx ok t) (fun _ => A) (expand H ptr mt) s := by
  refine wp_load (hA.and kept_snap) ⟨h0, hs⟩ fun m _ hm => ?_
  split
  · refine wp_bind (wp_step_of (hA.and kept_snap).stable hm
      fun m hi hm _ => ?_)
    have hlink : ∀ u, Access u m (if mt.firstLevel + 1 = m.levels then
        { m with levels := m.levels + 1 } else m) := by
      intro u
      split
      · exact ⟨.link, rfl, rfl⟩
      · exact access_refl u m
    refine ⟨(hlink t).publish.inv hi, hlink t, wp_ret fun m' hr _ => ?_⟩
    obtain ⟨ha, hm⟩ := (hA.and kept_snap).others hr ((hA.and kept_snap).own (hlink 1).publish hm)
    exact publishLoop_flag hA _ _ _ _ ha hm
  · refine wp_load (hA.and kept_snap) hm fun m _ hm => ?_
    split
    · exact publishLoop_flag hA _ _ _ _ hm.1 hm.2
    · exact wp_done hA hm.1

/-! ### `generic_insert` -/

theorem findEmptySlot_flag {key : K} : ∀ n ptr mt s, Snap ptr mt s →
    wp (flagCtx ok t) (fun r m => Snap r.2.1 r.2.2 m)
      (findEmptySlotLoop H key n ptr mt : Code K T (Find × Nat × Meta)) s := by
  intro n
  induction n with
  | zero => exact fun _ _ _ _ => trivial
  | succ n ih =>
    intro ptr mt s hs
    refine wp_bind (wp_mono (fun levels m _ hs => ?_)
      (wp_loads (collectLevels_loads _ _) kept_snap hs))
    refine wp_bind (wp_mono (fun f m _ hs => ?_)
      (wp_loads (emptyInLevels_meets _ _ (le_sum_levels _)).within kept_snap hs))
    refine wp_load kept_snap hs fun m _ hs => ?_
    split
    · exact wp_ret_of kept_snap.stable hs fun _ _ h => h
    · exact ih _ _ _ (snap_cur m)

theorem kept_true : Kept t fun _ : Mem K T => True := fun _ _ _ _ _ _ => trivial

variable [DecidableEq K]

theorem insertLoop_flag (ht : t ≠ 0) {key : K} {kv created : Word} : ∀ n check expanded s,
    wp (flagCtx ok t) (fun _ _ => True)
      (insertLoop H t key kv created n check expanded : Code K T (Ret K T)) s := by
  have hspare : ∀ {A : Mem K T → Prop}, t = 0 → ∀ m, A m → m.cur.lastLevel + 2 ≤ m.cur.firstLevel :=
    fun h => absurd h ht
  intro n
  induction n with
  | zero => exact fun _ _ _ => trivial
  | succ n ih =>
    intro check expanded s
    refine wp_load kept_true trivial fun m _ _ => ?_
    have hfound : wp (flagCtx ok t) (fun r m => Snap r.2.1 r.2.2 m) (if check = true then do
            let f ← find H t ⟨key, false, false⟩ m.metaPtr m.cur
            pure (f, m.metaPtr, m.cur)
          else findEmptySlot H key m.metaPtr m.cur : Code K T (Find × Nat × Meta)) m := by
      split
      · refine wp_then (findLoop_same _ _ _ _) kept_snap hspare (snap_cur m) fun f m' _ hs => ?_
        exact wp_ret_of kept_snap.stable hs fun _ _ h => h
      · exact findEmptySlot_flag _ _ _ _ (snap_cur m)
    refine wp_bind (wp_mono (fun r m _ hs => ?_) hfound)
    dsimp only
    split
    · exact wp_same (.bind deleteEntry_same fun _ => trivial) kept_true hspare trivial
    · split
      · split
        · trivial
        · refine wp_then (casSlot_same fun _ => ⟨rfl, rfl, rfl, rfl, rfl⟩) kept_true hspare trivial
            fun done m _ _ => ?_
          split
          · split
            · refine wp_load kept_true trivial fun m _ _ => ?_
              split
              · exact ih _ _ _
              · exact wp_done kept_true trivial
            · exact wp_done kept_true trivial
          · exact ih _ _ _
      · refine wp_bind (wp_mono (fun _ m _ _ => ?_) (expand_flag kept_true trivial hs))
        exact ih _ _ _

/-! ### `resize` -/

omit [DecidableEq K]

/-- The rehasher works on level `l`, which is not one of the two topmost. -/
def Long (l : Nat) (m : Mem K T) : Prop := m.cur.lastLevel = l ∧ l + 2 ≤ m.cur.firstLevel

theorem Long.spare {l : Nat} {m : Mem K T} (h : Long l m) :
    m.cur.lastLevel + 2 ≤ m.cur.firstLevel := by
  rw [h.1]
  exact h.2

theorem kept_long {l : Nat} : Kept 0 (Long l : Mem K T → Prop) := by
  intro u m m' hu hm h
  refine ⟨(hm.last (by omega)).trans h.1, h.2.trans hm.later.first⟩

theorem countLevels_flag (hA : Kept t A) : ∀ fuel li n s, A s → Snap ptr mt s → li ≤ mt.firstLevel →
    wp (flagCtx ok t) (fun r m => r = n + (mt.firstLevel - li) ∧ A m ∧ Snap ptr mt m)
      (countLevels mt fuel li n : Code K T Nat) s := by
  intro fuel
  induction fuel with
  | zero => exact fun _ _ _ _ _ _ => trivial
  | succ fuel ih =>
    intro li n s h0 hs hli
    rw [countLevels]
    split
    · next heq =>
      refine wp_ret_of (hA.and kept_snap).stable ⟨h0, hs⟩ fun _ _ h => ⟨?_, h⟩
      omega
    · next hne =>
      refine wp_load (hA.and kept_snap) ⟨h0, hs⟩ fun m hi hm => ?_
      split
      · next up heq =>
        split at heq
        · injection heq with heq
          refine wp_mono (fun r m _ h => ⟨?_, h.2⟩) (ih _ _ _ hm.1 hm.2 (by omega))
          omega
        · cases heq
      · trivial

theorem dropLoop_flag {l : Nat} : ∀ n ptr mt s, Long l s → Snap ptr mt s → mt.lastLevel = l →
    mt.lastLevel < mt.firstLevel →
    wp (flagCtx ok 0) (fun _ _ => True) (dropLoop l n ptr mt : Code K T Unit) s := by
  intro n
  induction n with
  | zero => exact fun _ _ _ _ _ _ _ => trivial
  | succ n ih =>
    intro ptr mt s hl hs hlast hlt
    refine wp_bind (wp_mono (fun left m _ h => ?_)
      (countLevels_flag kept_long _ _ 0 _ hl hs hlt.le))
    obtain ⟨hleft, hl, hs⟩ := h
    refine wp_load (kept_long.and kept_snap) ⟨hl, hs⟩ fun m _ h => ?_
    split
    · trivial
    · next up heq =>
      split at heq
      · injection heq with heq
        subst heq
        refine wp_bind (wp_step_of (kept_long.and kept_snap).stable h
          fun m hi h _ => ?_)
        obtain ⟨hl, hs⟩ := h
        by_cases hptr : m.metaPtr = ptr
        · have hcur := hs.cur hptr
          have hdrop : Publish 0 m { m with
              metaPtr := m.metaPtr + 1
              metas := update m.metas (m.metaPtr + 1)
                ⟨mt.firstLevel, l + 1, left != 2⟩
              expandBucket := 0 } := by
            rw [hleft, Nat.zero_add, ← hlast, ← hcur]
            exact .drop rfl (by rw [hl.1]; exact hl.2)
          simp only [if_pos hptr, beq_iff_eq.mpr hptr]
          exact ⟨hdrop.inv hi, ⟨hdrop, rfl, rfl⟩, wp_ret fun _ _ _ => wp_done kept_true trivial⟩
        · simp only [if_neg hptr, beq_eq_false_iff_ne.mpr hptr]
          refine ⟨hi, access_refl 0 m, wp_ret fun m' hr _ => ?_⟩
          have hl' := kept_long.others hr hl
          refine wp_load kept_long hl' fun m hi hl => ?_
          exact ih _ _ _ hl (snap_cur m) hl.1 hi.chain
      · cases heq

theorem rehashLoop_flag {l b : Nat} : ∀ n s, Long l s →
    wp (flagCtx ok 0) (fun _ _ => True) (rehashLoop H b n : Code K T Unit) s := by
  intro n
  induction n with
  | zero => exact fun _ _ => trivial
  | succ n ih =>
    intro s hl
    refine wp_rmw fun m hr hi _ => ?_
    have hl := kept_long.others hr hl
    have hsame : Access 0 m { m with cursor := 0, hold := .none } :=
      Same.access ⟨rfl, rfl, rfl, rfl, rfl⟩ fun _ => .inr hl.spare
    have hst : Kept 0 fun m' : Mem K T => Long l m' ∧ Snap m.metaPtr m.cur m' :=
      kept_long.and kept_snap
    refine ⟨hsame.publish.inv hi, hsame, ?_⟩
    refine wp_then (rehashBucket_same _ _) hst (fun _ _ h => h.1.spare) ⟨hl, snap_cur m⟩
      fun done m' _ h => ?_
    split
    · refine wp_then (fun _ => ⟨⟨rfl, rfl, rfl, rfl, rfl⟩, trivial⟩) hst (fun _ _ h => h.1.spare) h
        fun _ m' _ h => ?_
      split
      · rw [hl.1]
        exact dropLoop_flag H.retries _ _ m' h.1 h.2 hl.1 hi.chain
      · exact wp_done kept_true trivial
    · refine wp_bind (wp_mono (fun _ m _ hl => ?_) (expand_flag kept_long h.1 h.2))
      exact ih _ hl

theorem resize_flag : wp (flagCtx ok 0) (fun _ _ => True) (resize H : Code K T Unit) s := by
  refine wp_load kept_true trivial fun m hi _ => ?_
  have hlow : Kept 0 fun m' : Mem K T => m'.cur.lastLevel = m.cur.lastLevel ∧
      m.cur.firstLevel ≤ m'.cur.firstLevel := by
    intro u m₁ m₂ hu hm h
    exact ⟨(hm.last (by omega)).trans h.1, h.2.trans hm.later.first⟩
  have hchain := hi.chain
  refine wp_bind (wp_mono (fun levels m' _ h => ?_)
    (countLevels_flag hlow _ _ 1 _ ⟨rfl, Nat.le_refl _⟩ (snap_cur m) hchain.le))
  obtain ⟨hlevels, h, _⟩ := h
  dsimp only at hlevels
  split
  · exact wp_done kept_true trivial
  · refine wp_load hlow h fun m' _ h => ?_
    refine rehashLoop_flag _ _ ⟨h.1, ?_⟩
    omega

end Publish

/-! ## Runs -/

section Runs

variable [DecidableEq K] {H : Table K} {c : Config K T}

omit [DecidableEq K] in
theorem Entered.publish {t : Nat} {op : Op K T} {m m' : Mem K T} (h : Entered t op m m') :
    Publish t m m' := by
  rw [h.eq]
  exact .call _ _

theorem code_flag {ok : Site → Mem K T → Prop} {t : Nat} {op : Op K T} {m m' : Mem K T}
    (he : Entered t op m m') : wp (flagCtx ok t) (fun _ _ => True) (code H t op) m' := by
  have hspare : op ≠ .resize → ∀ {A : Mem K T → Prop}, t = 0 → ∀ m, A m →
      m.cur.lastLevel + 2 ≤ m.cur.firstLevel := fun hop _ h => absurd (he.rehasher.mpr h) hop
  cases op with
  | insert k v a =>
    refine wp_then newEntry_same kept_true (hspare nofun) trivial fun _ _ _ _ => ?_
    exact insertLoop_flag (fun h => nomatch he.rehasher.mpr h) _ _ _ _
  | update k v a => exact wp_same genericUpdate_same kept_true (hspare nofun) trivial
  | erase k => exact wp_same erase_same kept_true (hspare nofun) trivial
  | search k => exact wp_loads search_loads kept_true trivial
  | resize =>
    obtain rfl := he.rehasher.mp rfl
    exact wp_bind (wp_mono (fun _ _ _ _ => wp_done kept_true trivial) resize_flag)

/-- The outline of what is published, for all runs. -/
def flagOutline (H : Table K) : Outline (obj H) (Cond.free : Cond Site (Mem K T) (Op K T)) :=
  .ofMoves Chained Publish (fun _ _ _ _ _ => True) publish_refl
    (fun hi _ he => ⟨(entered he).publish.inv hi, (entered he).publish⟩)
    (by
      intro t op m m' hi _ he
      have hleave : ∀ m : Mem K T, Publish t m { m with ops := m.ops.filter fun x => x.1 != t } :=
        fun m => .call _ m.calls
      refine wp_mono (Q := fun _ _ => True)
        (fun r m hi _ => ⟨(hleave m).inv hi, hleave m, trivial⟩) ?_
      exact wp_of_guarBy (access_refl t) (fun _ _ h => h.publish) (code_flag (entered he)))

/-- The step publishes the levels that are published already, and now as being resized. -/
def FlagsOnly (m m' : Mem K T) : Prop :=
  m.cur.isResizing = false ∧ m'.cur = { m.cur with isResizing := true }

instance {K : Type} (m m' : Mem K T) : Decidable (FlagsOnly m m') :=
  inferInstanceAs (Decidable (_ ∧ _))

omit [DecidableEq K] in
/-- A step that does not do so keeps the flag right. -/
theorem Publish.flag {t : Nat} {m m' : Mem K T} (h : Publish t m m') (hi : Chained m)
    (hnot : ¬ FlagsOnly m m')
    (hflag : m.cur.isResizing = true ↔ m.cur.lastLevel + 2 ≤ m.cur.firstLevel) :
    m'.cur.isResizing = true ↔ m'.cur.lastLevel + 2 ≤ m'.cur.firstLevel := by
  have hchain := hi.chain
  cases h with
  | same h =>
    rw [h.cur]
    exact hflag
  | call ops calls => exact hflag
  | link => exact hflag
  | grow first hfirst =>
    rw [publish_cur]
    refine iff_of_true rfl ?_
    dsimp only
    rcases hfirst with heq | ⟨heq, _⟩
    · -- the same levels again: they are being resized
      have hset : m.cur.isResizing = true := by
        by_contra hne
        refine hnot ⟨Bool.eq_false_iff.mpr hne, ?_⟩
        rw [publish_cur, heq]
      rw [heq]
      exact hflag.mp hset
    · omega
  | drop ht hlong =>
    rw [publish_cur]
    simp only [bne_iff_ne]
    omega

/-- As long as no step publishes the same levels as being resized that were not, the
published `is_resizing` is true just when there are three levels or more from `last_level`
to `first_level`. -/
theorem resizing_iff_three_levels (h : (obj H).Reach Cond.free Init c)
    (hc : c.trail.IsChain fun m m' => ¬ FlagsOnly m m') :
    ∃ n, (countLevels c.mem.cur c.mem.cur.span c.mem.cur.lastLevel 1).exec c.mem = some (n, c.mem) ∧
      (c.mem.cur.isResizing = true ↔ 3 ≤ n) := by
  have hinit : ∀ m : Mem K T, Init m → Chained m := by
    intro m hm
    obtain ⟨before, rfl⟩ := hm
    exact ⟨Nat.one_lt_two, fun _ _ => ⟨Nat.zero_lt_one, Nat.le_refl _⟩⟩
  have hH := (flagOutline H).sound hinit h
  obtain ⟨m₀, rest, ⟨before, hm₀⟩, htrail⟩ := h.head
  have hchain : c.trail.IsChain fun m m' => (Chained m ∧ ∃ t, Publish t m m') ∧ ¬ FlagsOnly m m' := by
    refine List.isChain_iff_getElem.mpr fun i hi => ⟨⟨?_, ?_⟩, ?_⟩
    · exact hH.inv _ (List.getElem_mem _)
    · exact List.isChain_iff_getElem.mp hH.chain i hi
    · exact List.isChain_iff_getElem.mp hc i hi
  have hall : ∀ m ∈ c.trail, (m.cur.isResizing = true ↔ m.cur.lastLevel + 2 ≤ m.cur.firstLevel) := by
    refine hchain.induction _ _ ?_ fun hne => ?_
    · intro m m' hstep hflag
      obtain ⟨⟨hi, t, hp⟩, hnot⟩ := hstep
      exact hp.flag hi hnot hflag
    · simp only [htrail, List.head_cons, hm₀]
      exact iff_of_false nofun (by simp [start, Mem.cur])
  have hi := hH.mem_inv
  have hlt := hi.chain
  obtain ⟨n, m', hx, hm', hn⟩ := runs_iff_exec.mp (countLevels_runs hi.top c.mem.cur.span
    c.mem.cur.lastLevel 1 (by rw [Meta.span]; omega) (by rw [Meta.span]; omega))
  subst hm'
  refine ⟨n, hx, (hall _ (List.mem_of_getElem? hH.trail_mem)).trans ?_⟩
  omega

/-- Seventeen inserts of thread 1; the last one makes the table grow. -/
def growing : List (Act (Op Word Nat)) :=
  ((List.range 16).flatMap fun j => callFor 1 (oddInsert j) (24 + j)) ++ callFor 1 (oddInsert 16) 88

theorem growing_run : ((obj smallTable).runUnder Cond.free growing (Cfg.init emptyTable)).any
    fun c => (c.trail.IsChain fun m m' => ¬ FlagsOnly m m') ∧ c.mem.cur = ⟨2, 0, true⟩ := by
  decide +kernel

theorem resizing_iff_three_levels_growing : ∃ (c : Config Word Nat) (n : Nat),
    (obj smallTable).Reach Cond.free Init c ∧ (c.trail.IsChain fun m m' => ¬ FlagsOnly m m') ∧
      c.mem.cur.isResizing = true ∧
      (countLevels c.mem.cur c.mem.cur.span c.mem.cur.lastLevel 1).exec c.mem = some (n, c.mem) ∧
      3 ≤ n := by
  obtain ⟨c, hreach, hchain, hcur⟩ := emptyTable_reach.of_any growing_run
  obtain ⟨n, hn, hflag⟩ := resizing_iff_three_levels hreach hchain
  have hset : c.mem.cur.isResizing = true := by rw [hcur]
  exact ⟨c, n, hreach, hchain, hset, hn, hflag.mp hset⟩

/-- Two more inserts find no room in the two levels. Thread 1 links the third level and has
not published it yet; thread 2 finds it linked. -/
def linkedOnly : List (Act (Op Word Nat)) :=
  ((List.range 16).flatMap fun j => callFor 1 (oddInsert j) (24 + j)) ++
    callFor 1 (oddInsert 16) 39 ++ callFor 2 (oddInsert 17) 40

theorem linkedOnly_run : ((obj smallTable).runUnder Cond.free linkedOnly (Cfg.init emptyTable)).any
    fun c => c.mem.cur = ⟨1, 0, true⟩ ∧ c.mem.levels = 3 := by
  decide +kernel

/-- `is_resizing` is published with two levels. -/
theorem resizing_two_levels : ∃ c : Config Word Nat, (obj smallTable).Reach Cond.free Init c ∧
    c.mem.cur.isResizing = true ∧
    (countLevels c.mem.cur c.mem.cur.span c.mem.cur.lastLevel 1).exec c.mem = some (2, c.mem) := by
  obtain ⟨c, hreach, hcur, hlevels⟩ := emptyTable_reach.of_any linkedOnly_run
  refine ⟨c, hreach, by rw [hcur], ?_⟩
  rw [hcur]
  simp [Meta.span, countLevels, loadUp, hlevels]

end Runs

end ShmPcc.ClevelHash
