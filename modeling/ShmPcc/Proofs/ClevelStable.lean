import ShmPcc.Proofs.ClevelMoves

/-!
# Threads among other threads: the common part

The context in which the code of a thread is verified, and the assertions that
the moves of the other threads keep: a snapshot of the published chain, an
operation in progress, an entry that the thread has to itself or has published,
and where the item of a key is to be found.

A program that only loads is verified in the quiet context, where its own moves
change nothing; whatever the others keep is then kept by it as well.
-/

namespace ShmPcc.ClevelHash

open Function Prog

variable {K T α β : Type}

def ctx (H : Table K) (ok : Site → Mem K T → Prop) (t : Nat) : Ctx Site (Mem K T) :=
  Ctx.pool (Inv H) (Move H) (fun _ _ => .stay) ok t

def quiet (H : Table K) (ok : Site → Mem K T → Prop) (t : Nat) : Ctx Site (Mem K T) :=
  (ctx H ok t).quiet

/-- An assertion of thread `t` that the others keep. -/
def Stable (H : Table K) (t : Nat) (A : Mem K T → Prop) : Prop :=
  ∀ m m', Others (Inv H) (Move H) t m m' → A m → A m'

section Rules

variable {H : Table K} {ok : Site → Mem K T → Prop} {t : Nat} {s : Mem K T} {A : Mem K T → Prop}

theorem stable_of (hA : ∀ {u m m'}, u ≠ t → Inv H m → Move H u m m' → A m → A m') : Stable H t A :=
  fun _ _ => Others.kept fun hu hi _ hm => hA hu hi hm

variable {Q : α → Mem K T → Prop}

theorem wp_move (hA : Stable H t A) (h0 : A s) {l : Site} {u : Mem K T → Mem K T}
    {n : Mem K T → Code K T α}
    (h : ∀ m, Inv H m → A m → ok l m → Move H t m (u m) ∧ wp (ctx H ok t) Q (n m) (u m)) :
    wp (ctx H ok t) Q (.step l u n) s :=
  wp_step_of hA h0 fun m hi ha hok =>
    ⟨(h m hi ha hok).1.inv hi, (h m hi ha hok).1, (h m hi ha hok).2⟩

theorem wp_rmw_move (hA : Stable H t A) (h0 : A s) {Q : β → Mem K T → Prop} {l : Site}
    {u : Mem K T → Mem K T} {f : Mem K T → α} {k : α → Code K T β}
    (h : ∀ m, Inv H m → A m → ok l m →
      Move H t m (u m) ∧ wp (ctx H ok t) Q (k (f m)) (u m)) :
    wp (ctx H ok t) Q (rmw l u f >>= k) s :=
  wp_move hA h0 h

theorem wp_loadEntry {C : Ctx Site (Mem K T)} {a : Word} {k : K × T → Code K T α}
    (hA : C.Stable A) (h0 : A s)
    (h : ∀ m kv, C.inv m → A m → m.entries a = some kv → wp C Q (k kv) m) :
    wp C Q (loadEntry a >>= k) s := by
  refine wp_step_of hA h0 fun m hi ha _ => ⟨hi, C.guar_refl m, ?_⟩
  dsimp only [id]
  cases he : m.entries a with
  | none => exact trivial
  | some kv => exact h m kv hi ha he

theorem wp_casSlot (hA : Stable H t A) (h0 : A s) {l : Site} {q : Slot} {e d : Word}
    {note : Mem K T → Mem K T} {k : Bool → Code K T α}
    (hdone : ∀ m, Inv H m → A m → ok l m → m.slots q = e → Move H t m (note { m with slots := update m.slots q d }) ∧ wp (ctx H ok t) Q (k true) (note { m with slots := update m.slots q d }))
    (hfail : ∀ m, Inv H m → A m → m.slots q ≠ e → wp (ctx H ok t) Q (k false) m) :
    wp (ctx H ok t) Q (casSlot l q e d note >>= k) s := by
  refine wp_rmw_move hA h0 fun m hi ha hok => ?_
  by_cases he : m.slots q = e
  · simp only [if_pos he, beq_iff_eq.mpr he]
    exact hdone m hi ha hok he
  · simp only [if_neg he, beq_eq_false_iff_ne.mpr he]
    exact ⟨.stay, hfail m hi ha he⟩

theorem wp_deleteEntry (hA : Stable H t A) (h0 : A s) {a : Word} {k : Unit → Code K T α}
    (hown : ∀ m, A m → m.owner a = some t)
    (h : ∀ m, Inv H m → A m → wp (ctx H ok t) Q (k ()) (m.release a)) :
    wp (ctx H ok t) Q (deleteEntry a >>= k) s :=
  wp_move hA h0 fun m hi ha _ => ⟨.release a (hown m ha), h m hi ha⟩

end Rules

/-! ## Snapshots -/

section Snapshots

variable {H : Table K} {ok : Site → Mem K T → Prop} {t : Nat} {m m' s : Mem K T}
  {A : Mem K T → Prop} {ptr : Nat} {mt : Meta}

/-- What `meta.load()` returned is a publication of the past. -/
def Snap (ptr : Nat) (mt : Meta) (m : Mem K T) : Prop := ptr ≤ m.metaPtr ∧ m.metas ptr = mt

theorem Snap.later (h : Snap ptr mt m) (hl : Later m m') : Snap ptr mt m' :=
  ⟨Nat.le_trans h.1 hl.ptr, (hl.metas ptr h.1).trans h.2⟩

theorem snap_cur (m : Mem K T) : Snap m.metaPtr m.cur m := ⟨Nat.le_refl _, rfl⟩

theorem Snap.bounds (h : Snap ptr mt m) (hi : Inv H m) : mt.lastLevel < mt.firstLevel ∧
    mt.lastLevel ≤ m.cur.lastLevel ∧ mt.firstLevel ≤ m.cur.firstLevel := by
  have := hi.snapshots ptr h.1
  rwa [h.2] at this

theorem Snap.cur (h : Snap ptr mt m) (hptr : m.metaPtr = ptr) : m.cur = mt := by
  rw [Mem.cur, hptr, h.2]

theorem snap_stable : Stable H t (Snap ptr mt : Mem K T → Prop) :=
  stable_of fun _ _ hm h => h.later hm.later

theorem wp_snap {Q : α → Mem K T → Prop} {p : Code K T α} (hs : Snap ptr mt s)
    (h : wp (quiet H ok t) Q p s) :
    wp (quiet H ok t) (fun a m => Q a m ∧ Snap ptr mt m) p s :=
  wp_frame snap_stable (fun _ he h => he ▸ h) hs h

theorem wp_snap_move {Q : α → Mem K T → Prop} {p : Code K T α} (hs : Snap ptr mt s)
    (h : wp (ctx H ok t) Q p s) :
    wp (ctx H ok t) (fun a m => Q a m ∧ Snap ptr mt m) p s :=
  wp_frame snap_stable (fun _ hg h => h.later (Move.later hg)) hs h

/-- A walk along the `up` pointers of a snapshot finds all its levels. -/
theorem collectLevels_wp : ∀ n li s, Snap ptr mt s → li ≤ mt.firstLevel →
    wp (quiet H ok t) (fun levels _ => levels = List.range' li (mt.firstLevel + 1 - li))
      (collectLevels mt n li) s := by
  intro n
  induction n with
  | zero => exact fun _ _ _ _ => trivial
  | succ n ih =>
    intro li s hs hli
    refine wp_read_of snap_stable hs fun m hi hm => ?_
    split
    · next heq =>
      subst heq
      refine wp_ret fun _ _ _ => ?_
      rw [show mt.firstLevel + 1 - mt.firstLevel = 1 by omega]
      rfl
    · next hne =>
      have hup : li + 1 < m.levels := by
        have := hm.bounds hi
        have := hi.top
        omega
      rw [if_pos hup]
      refine wp_bind (wp_mono ?_ (ih (li + 1) m hm (by omega)))
      rintro levels m' _ rfl
      refine wp_ret fun _ _ _ => ?_
      rw [show mt.firstLevel + 1 - li = mt.firstLevel + 1 - (li + 1) + 1 by omega,
        List.range'_succ]

theorem countLevels_wp : ∀ fuel li n s, Snap ptr mt s → li ≤ mt.firstLevel →
    wp (quiet H ok t) (fun r _ => r = n + (mt.firstLevel - li)) (countLevels mt fuel li n) s := by
  intro fuel
  induction fuel with
  | zero => exact fun _ _ _ _ _ => trivial
  | succ fuel ih =>
    intro li n s hs hli
    rw [countLevels]
    split
    · next heq =>
      exact wp_ret fun _ _ _ => by omega
    · next hne =>
      refine wp_read_of snap_stable hs fun m hi hm => ?_
      have hup : li + 1 < m.levels := by
        have := hm.bounds hi
        have := hi.top
        omega
      rw [if_pos hup]
      refine wp_mono ?_ (ih (li + 1) (n + 1) m hm (by omega))
      rintro r _ _ rfl
      omega

end Snapshots

/-! ## `expand` -/

/-- Only the chain is longer at the top. -/
structure Expanded (m m' : Mem K T) : Prop where
  slots : m'.slots = m.slots
  entries : m'.entries = m.entries
  owner : m'.owner = m.owner
  ops : m'.ops = m.ops
  calls : m'.calls = m.calls
  hold : m'.hold = m.hold
  src : m'.src = m.src
  later : Later m m'

theorem Expanded.refl (m : Mem K T) : Expanded m m :=
  ⟨rfl, rfl, rfl, rfl, rfl, rfl, rfl, (Move.stay (H := ⟨fun _ => 0, 0, 0⟩) (t := 0)).later⟩

section Expand

variable {H : Table K} {ok : Site → Mem K T → Prop} {t : Nat} {m m' s : Mem K T}
  {A : Mem K T → Prop} {ptr : Nat} {mt : Meta}

/-- The context of a program that does nothing else than expanding. -/
def expanding (H : Table K) (ok : Site → Mem K T → Prop) (t : Nat) : Ctx Site (Mem K T) :=
  (ctx H ok t).guarBy (fun m m' => Move H t m m' ∧ Expanded m m') fun m => ⟨.stay, .refl m⟩

theorem wp_expanding (hA : Stable H t A)
    (hE : ∀ {m m'}, Inv H m → Expanded m m' → A m → A m') (h0 : A s) {Q : α → Mem K T → Prop}
    {p : Code K T α} (h : wp (expanding H ok t) Q p s) :
    wp (ctx H ok t) (fun a m => Q a m ∧ A m) p s := by
  refine wp_of_guarBy (g := fun m m' => Move H t m m' ∧ Expanded m m')
    (fun m => ⟨.stay, .refl m⟩) (fun _ _ hg => hg.1) ?_
  exact wp_frame hA (fun hi hg h => hE hi hg.2 h) h0 h

theorem link_expanded : Expanded m { m with levels := m.levels + 1 } :=
  ⟨rfl, rfl, rfl, rfl, rfl, rfl, rfl, (Move.link (H := ⟨fun _ => 0, 0, 0⟩) (t := 0)).later⟩

theorem grow_expanded {first : Nat} {flag : Bool} (hle : m.cur.firstLevel ≤ first) :
    Expanded m { m with
      metaPtr := m.metaPtr + 1
      metas := update m.metas (m.metaPtr + 1) ⟨first, m.cur.lastLevel, flag⟩ } :=
  ⟨rfl, rfl, rfl, rfl, rfl, rfl, by rw [Mem.src, publish_cur]; rfl,
    .publish ⟨first, _, flag⟩ (Nat.le_refl _) hle _⟩

theorem casMeta_grow {first : Nat} {flag : Bool} {Q : Bool → Mem K T → Prop}
    (hs : Snap ptr mt s) (hle : mt.firstLevel ≤ first) (hlt : first < s.levels)
    (hQ : ∀ b m, Q b m) :
    wp (expanding H ok t) Q (casMeta ptr ⟨first, mt.lastLevel, flag⟩ id) s := by
  have hst : Stable H t fun m : Mem K T => Snap ptr mt m ∧ first < m.levels :=
    stable_of fun _ _ hm h => ⟨h.1.later hm.later, Nat.lt_of_lt_of_le h.2 hm.later.levels⟩
  refine wp_step_of (C := expanding H ok t) hst ⟨hs, hlt⟩ fun m hi hm _ => ?_
  have hmove : Move H t m (if m.metaPtr = ptr then { m with
        metaPtr := m.metaPtr + 1
        metas := update m.metas (m.metaPtr + 1) ⟨first, mt.lastLevel, flag⟩ } else m) ∧
      Expanded m (if m.metaPtr = ptr then { m with
        metaPtr := m.metaPtr + 1
        metas := update m.metas (m.metaPtr + 1) ⟨first, mt.lastLevel, flag⟩ } else m) := by
    split
    · next hptr =>
      rw [← hm.1.cur hptr]
      have hle' : m.cur.firstLevel ≤ first := by rw [hm.1.cur hptr]; exact hle
      exact ⟨.grow first flag hle' hm.2, grow_expanded hle'⟩
    · exact ⟨.stay, .refl m⟩
  exact ⟨hmove.1.inv hi, hmove, wp_ret fun m' _ _ => hQ _ m'⟩

theorem publishLoop_wp {newCapacity : Nat} : ∀ n ptr mt s, Snap ptr mt s →
    wp (expanding H ok t) (fun _ _ => True) (publishLoop H newCapacity n ptr mt) s := by
  intro n
  induction n with
  | zero => exact fun _ _ _ _ => trivial
  | succ n ih =>
    intro ptr mt s hs
    -- whichever `first_level` is published, it is linked
    have hup : ∀ first m, Snap ptr mt m → mt.firstLevel ≤ first → first < m.levels →
        wp (expanding H ok t) (fun _ _ => True)
          (casMeta ptr ⟨first, mt.lastLevel, true⟩ id >>= fun done =>
            if done then pure () else loadMeta >>= fun mt' =>
              if newCapacity ≤ H.capacity mt'.2.firstLevel ∧ mt'.2.isResizing = true
              then pure () else publishLoop H newCapacity n mt'.1 mt'.2) m := by
      intro first m hm hle hlt
      refine wp_bind (casMeta_grow hm hle hlt fun b m => ?_)
      cases b with
      | true => exact wp_ret fun _ _ _ => trivial
      | false =>
        refine wp_read fun m' _ _ _ => ?_
        split
        · exact wp_ret fun _ _ _ => trivial
        · exact ih _ _ _ (snap_cur m')
    rw [publishLoop]
    split
    · refine wp_bind (wp_ret fun m hr hi => ?_)
      have hm : Snap ptr mt m := snap_stable _ _ hr hs
      have hb := hm.bounds hi
      exact hup _ m hm (Nat.le_refl _) (Nat.lt_of_le_of_lt hb.2.2 hi.top)
    · refine wp_read_of snap_stable hs fun m hi hm => ?_
      split
      · exact trivial
      · next first heq =>
        split at heq
        · next hlt =>
          injection heq with heq
          subst heq
          exact hup _ m hm (Nat.le_succ _) hlt
        · cases heq

theorem expand_wp (hs : Snap ptr mt s) :
    wp (expanding H ok t) (fun _ _ => True) (expand H ptr mt) s := by
  refine wp_read_of snap_stable hs fun m hi hm => ?_
  split
  · refine wp_bind (wp_step_of snap_stable hm
      fun m' hi' hm' _ => ?_)
    have hmove : Move H t m' (if mt.firstLevel + 1 = m'.levels then
          { m' with levels := m'.levels + 1 } else m') ∧
        Expanded m' (if mt.firstLevel + 1 = m'.levels then
          { m' with levels := m'.levels + 1 } else m') := by
      split
      · exact ⟨.link, link_expanded⟩
      · exact ⟨.stay, .refl m'⟩
    refine ⟨hmove.1.inv hi', hmove, wp_ret fun m'' hr _ => publishLoop_wp _ _ _ _ ?_⟩
    exact snap_stable _ _ hr (hm'.later hmove.1.later)
  · refine wp_read_of snap_stable hm fun m' hi' hm' => ?_
    split
    · exact publishLoop_wp _ _ _ _ hm'
    · exact wp_ret fun _ _ _ => trivial

end Expand

/-! ## The item of a key -/

section Item

variable {H : Table K} {t u : Nat} {k : K} {L : List (Op K T)} {m m' : Mem K T}

/-- The calls on the key are `L`, and no thread but `t` is inside one; or there
are more calls by now. -/
def Alone (t : Nat) (k : K) (L : List (Op K T)) (m : Mem K T) : Prop :=
  L <+: m.calls k ∧ (m.calls k = L → ∀ u, u ≠ t → m.Foreign k u)

theorem Alone.move (h : Alone t k L m) (hm : Move H u m m') : Alone t k L m' := by
  refine ⟨h.1.trans (hm.calls k), fun hL v hv => ?_⟩
  have hL' : m.calls k = L :=
    ((hL ▸ hm.calls k : m.calls k <+: L).eq_of_length_le h.1.length_le)
  exact hm.foreign (hL.trans hL'.symm) (h.2 hL' v hv)

/-- The key is in a slot that the rehasher has not done with. -/
def Mem.Keeps (m : Mem K T) (k : K) : Prop := ∃ p w, m.Safe p ∧ m.At k p w

theorem Mem.Keeps.move (h : m.Keeps k) (hp : 2 ≤ H.hashpower) (hi : Inv H m)
    (hm : Move H t m m') (hf : m.Foreign k t) : m'.Keeps k := by
  obtain ⟨p, w, hs, ha⟩ := h
  obtain ⟨q, hs', ha', _⟩ := hm.at_safe hi hp hf hs ha
  exact ⟨q, w, hs', ha'⟩

theorem Mem.Keeps.expanded (h : m.Keeps k) (he : Expanded m m') : m'.Keeps k := by
  obtain ⟨p, w, hs, hw, v, hv⟩ := h
  obtain ⟨hl, hb, hc⟩ := Slot.mk.inj he.src
  refine ⟨p, w, ?_, by rw [he.slots]; exact hw, v, ?_⟩
  · simp only [Mem.Safe, hl, hb, hc, he.hold]
    exact hs
  · rw [entryAt_eq_some] at hv ⊢
    rw [he.slots, he.entries]
    exact hv

end Item

end ShmPcc.ClevelHash
