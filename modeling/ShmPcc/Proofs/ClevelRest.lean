import ShmPcc.Lib.Noted
import ShmPcc.Proofs.ClevelFlag

/-!
# Where the rehasher rests

The moves of the threads and what is published, put together. As long as `is_resizing` is
not published there are two levels, so the rehasher finds nothing to do; and it has left its
variables at the start of the bottom level when it dropped the one before. Nothing is taken
out of the bottom level then, and every slot of it is one that the rehasher is still to
come to.
-/

namespace ShmPcc.ClevelHash

open Prog

variable {K T : Type}

structure Resting (m : Mem K T) : Prop where
  two : m.cur.isResizing = false → m.cur.firstLevel = m.cur.lastLevel + 1
  bucket : m.cur.isResizing = false → m.expandBucket = 0
  cursor : m.cur.isResizing = false → m.cursor = 0
  free : m.cur.isResizing = false → m.hold.isCopied = false

section Step

variable {H : Table K} {t : Nat} {m m' : Mem K T}

theorem Resting.of_same (h : Resting m) (hcur : m'.cur = m.cur) (hb : m'.expandBucket = m.expandBucket)
    (hc : m'.cursor = m.cursor) (hh : m'.hold = m.hold) : Resting m' := by
  refine ⟨?_, ?_, ?_, ?_⟩
  · rw [hcur]
    exact h.two
  · rw [hcur, hb]
    exact h.bucket
  · rw [hcur, hc]
    exact h.cursor
  · rw [hcur, hh]
    exact h.free

theorem Resting.worked (h : Resting m) (hp : Publish 0 m m') (hptr : m'.metaPtr = m.metaPtr)
    (hmetas : m'.metas = m.metas) (hops : m'.ops = m.ops) : Resting m' := by
  have hcur : m'.cur = m.cur := by rw [Mem.cur, Mem.cur, hptr, hmetas]
  cases hp with
  | same hs hrest =>
    rcases hrest rfl with ⟨hc, hh, hb⟩ | hlong
    · exact h.of_same hcur hb hc hh
    · have hset : m.cur.isResizing ≠ false := by
        intro hset
        have := h.two hset
        omega
      exact ⟨fun hn => absurd (hcur ▸ hn) hset, fun hn => absurd (hcur ▸ hn) hset,
        fun hn => absurd (hcur ▸ hn) hset, fun hn => absurd (hcur ▸ hn) hset⟩
  | call ops calls | link => exact h.of_same hcur rfl rfl rfl
  | grow first hfirst | drop ht hlong =>
    dsimp only at hptr
    omega

theorem Move.resting (h : Move H t m m') (hp : Publish t m m') (hr : Resting m) : Resting m' := by
  cases h with
  | grow first flag hle hlt =>
    -- `expand` publishes `is_resizing`
    suffices hflag : flag = true by
      subst hflag
      refine ⟨?_, ?_, ?_, ?_⟩ <;> rw [publish_cur] <;> nofun
    generalize hm' : ({ m with
      metaPtr := m.metaPtr + 1
      metas := Function.update m.metas (m.metaPtr + 1) ⟨first, m.cur.lastLevel, flag⟩ } :
        Mem K T) = m' at hp
    have hcur : m'.cur = ⟨first, m.cur.lastLevel, flag⟩ := by
      rw [← hm']
      exact publish_cur ..
    have hptr : m'.metaPtr = m.metaPtr + 1 := by rw [← hm']
    cases hp with
    | same hs hrest =>
      have := hs.ptr
      omega
    | call ops calls | link =>
      dsimp only at hptr
      omega
    | grow first' hfirst =>
      rw [publish_cur] at hcur
      injection hcur with _ _ hflag
      exact hflag.symm
    | drop ht hlong =>
      rw [publish_cur] at hcur
      injection hcur with _ hlast _
      omega
  | drop flag ht hh hc hb hl =>
    generalize hm' : ({ m with
      metaPtr := m.metaPtr + 1
      metas := Function.update m.metas (m.metaPtr + 1) ⟨m.cur.firstLevel, m.cur.lastLevel + 1, flag⟩
      expandBucket := 0 } : Mem K T) = m' at hp
    have hcur : m'.cur = ⟨m.cur.firstLevel, m.cur.lastLevel + 1, flag⟩ := by
      rw [← hm']
      exact publish_cur ..
    have hptr : m'.metaPtr = m.metaPtr + 1 := by rw [← hm']
    have hflag : flag = false → m.cur.firstLevel = m.cur.lastLevel + 2 := by
      intro hflag
      cases hp with
      | same hs hrest =>
        have := hs.ptr
        omega
      | call ops calls | link =>
        dsimp only at hptr
        omega
      | grow first' hfirst =>
        rw [publish_cur] at hcur
        injection hcur with _ hlast _
        omega
      | drop _ hlong =>
        rw [publish_cur, hflag] at hcur
        injection hcur with _ _ hcur
        have := of_decide_eq_false (p := m.cur.firstLevel - m.cur.lastLevel ≠ 2) (by simpa using hcur)
        omega
    refine ⟨?_, fun _ => by rw [← hm'], fun _ => by rw [← hm']; exact hc, fun _ => ?_⟩
    · rw [hcur]
      exact hflag
    · rw [← hm']
      show m.hold.isCopied = false
      rw [hh]
      rfl
  | hold w ht hw hne hh | skip ht hz hh | copy w dst k v ht hop hh hz he hs hlo hhi
  | clear w dst ht hh =>
    subst ht
    exact hr.worked hp rfl rfl rfl
  | restart ht hh =>
    subst ht
    exact hr.worked hp rfl rfl rfl
  | pass ht hh hc =>
    subst ht
    exact hr.worked hp rfl rfl rfl
  | _ => exact hr.of_same rfl rfl rfl rfl

/-- A slot that nothing is taken out of while `mt` is published. -/
def Meta.Firm (mt : Meta) (q : Slot) : Prop := mt.lastLevel < q.level ∨ mt.isResizing = false

theorem Resting.safe (h : Resting m) {q : Slot} (hlive : m.cur.lastLevel ≤ q.level)
    (hfirm : m.cur.Firm q) : m.Safe q := by
  refine ⟨hlive, fun hl => ?_⟩
  rcases hfirm with hlt | hset
  · omega
  · rw [h.bucket hset, h.cursor hset, h.free hset]
    rcases Nat.eq_zero_or_pos q.bucket with hb | hb
    · refine .inr ⟨hb.symm, ?_⟩
      rcases Nat.eq_zero_or_pos q.slot with hs | hs
      · exact .inr ⟨hs.symm, rfl⟩
      · exact .inl hs
    · exact .inl hb

end Step

/-! ## Both proofs of the code -/

/-- The table, what is published, and where the rehasher rests. -/
structure Ruled (H : Table K) (m : Mem K T) : Prop where
  inv : Inv H m
  chained : Chained m
  resting : Resting m

structure Ruling (H : Table K) (t : Nat) (m m' : Mem K T) : Prop where
  move : Move H t m m'
  publish : Publish t m m'

section Both

variable {H : Table K} {t : Nat} {m m' : Mem K T} {ok : Site → Mem K T → Prop}

theorem ruling_refl (t : Nat) (m : Mem K T) : Ruling H t m m := ⟨.stay, publish_refl t m⟩

theorem Ruling.inv (h : Ruling H t m m') (hi : Ruled H m) : Ruled H m' :=
  ⟨h.move.inv hi.inv, h.publish.inv hi.chained, h.move.resting h.publish hi.resting⟩

theorem ruled_start (before : Nat → Word) : Ruled H (start before : Mem K T) where
  inv := inv_start before
  chained := ⟨Nat.one_lt_two, fun _ _ => ⟨Nat.zero_lt_one, Nat.le_refl _⟩⟩
  resting := ⟨fun _ => rfl, fun _ => rfl, fun _ => rfl, fun _ => rfl⟩

/-- What an access in the code of thread `t` does. -/
structure Working (H : Table K) (t : Nat) (m m' : Mem K T) : Prop where
  move : Move H t m m'
  access : Access t m m'

theorem Working.ruling (h : Working H t m m') : Ruling H t m m' := ⟨h.move, h.access.publish⟩

def ruledCtx (H : Table K) (ok : Site → Mem K T → Prop) (t : Nat) : Ctx Site (Mem K T) :=
  (Ctx.pool (Ruled H) (Ruling H) ruling_refl ok t).guarBy (Working H t)
    fun m => ⟨.stay, access_refl t m⟩

theorem Others.rulings (h : Others (Ruled H) (Ruling H) t m m') :
    Others (Inv H) (Move H) t m m' ∧ Others Chained Publish t m m' := by
  constructor
  · refine Relation.ReflTransGen.mono (fun a b hab => ?_) _ _ h
    obtain ⟨ha, hb, u, hu, hg⟩ := hab
    exact ⟨ha.inv, hb.inv, u, hu, hg.move⟩
  · refine Relation.ReflTransGen.mono (fun a b hab => ?_) _ _ h
    obtain ⟨ha, hb, u, hu, hg⟩ := hab
    exact ⟨ha.chained, hb.chained, u, hu, hg.publish⟩

variable [DecidableEq K] {C : Cond Site (Mem K T) (Op K T)}

theorem code_ruled (hp : 2 ≤ H.hashpower) (hC : Tame H C) {op : Op K T} (hi : Inv H m)
    (hcall : C.atCall t op m) (he : enter t op m = some m') :
    wp (ruledCtx H C.atStep t)
      (fun _ m => Move H t m { m with ops := m.ops.filter fun x => x.1 != t }) (code H t op) m' := by
  have hmoves : wp (ctx H C.atStep t) _ (code H t op) m' := (outline hp hC).code_ok hi hcall he
  have hflags : wp (flagCtx C.atStep t) _ (code H t op) m' := code_flag (entered he)
  refine wp_mono (fun r m _ h => ?_) (wp_and hmoves hflags
    (fun m hi => ⟨hi.inv, hi.chained⟩) (fun m m' hr => Others.rulings hr) (fun _ _ h => ⟨h, h⟩)
    (fun m m' hi _ hm _ ha => ?_))
  · exact h.1.2.1
  · have hw : Working H t m m' := ⟨hm, ha⟩
    exact ⟨hw.ruling.inv hi, hw⟩

/-- Both outlines in one. -/
def ruledOutline (hp : 2 ≤ H.hashpower) (hC : Tame H C) : Outline (obj H) C :=
  .ofMoves (Ruled H) (Ruling H) (fun _ _ _ _ _ => True) ruling_refl
    (by
      intro t op m m' hi hcall he
      have hr : Ruling H t m m' :=
        ⟨(entered he).move (hC.free _ _ _ hcall), (entered he).publish⟩
      exact ⟨hr.inv hi, hr⟩)
    (by
      intro t op m m' hi hcall he
      refine wp_mono (fun r m hi h => ?_) (wp_of_guarBy (fun m => ⟨.stay, access_refl t m⟩)
        (fun _ _ h => Working.ruling h) (code_ruled hp hC hi.inv hcall he))
      have hr : Ruling H t m { m with ops := m.ops.filter fun x => x.1 != t } := ⟨h, .call _ _⟩
      exact ⟨hr.inv hi, hr, trivial⟩)

theorem ruled_of_reach (hp : 2 ≤ H.hashpower) (hC : Tame H C) {c : Config K T}
    (h : (obj H).Reach C Init c) : Ruled H c.mem := by
  have hinit : ∀ m : Mem K T, Init m → Ruled H m := by
    intro m hm
    obtain ⟨before, rfl⟩ := hm
    exact ruled_start before
  exact ((ruledOutline hp hC).sound hinit h).mem_inv

end Both

end ShmPcc.ClevelHash
