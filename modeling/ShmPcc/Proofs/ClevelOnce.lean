import ShmPcc.Proofs.ClevelPick

/-!
# One insert of a key succeeds

Notes are taken of the meta object that each thread loaded last, and, for the proof, of the
thread that made each entry. If an insert of the key succeeds in an empty slot only while
the meta object of its last load is published, and not in the bottom level of a table that is
being resized, then its slot is the vacancy of a pass over the published chain. So the key
was not in the table, and all its words from then on are copies of this one. A second insert
that succeeds has its word in the table as well: it is the same word, of the same entry, so
the thread is the same; but a thread that comes back to insert the key finds it.
-/

namespace ShmPcc.ClevelHash

open Function Prog

variable {K T : Type}

/-! ## Notes -/

/-- The meta object that each thread loaded last. -/
def noteMeta (t : Nat) (l : Site) (m : Mem K T) (seen : Nat → Nat) : Nat → Nat :=
  if l = .metaLoad then update seen t m.metaPtr else seen

/-- The thread that made each entry. -/
def noteMaker (t : Nat) (l : Site) (m : Mem K T) (maker : Word → Nat) : Word → Nat :=
  match l with
  | .entryNew a => if (m.entries a).isNone then update maker a t else maker
  | _ => maker

structure Notes where
  seen : Nat → Nat
  maker : Word → Nat

def noteAll (t : Nat) (l : Site) (m : Mem K T) (g : Notes) : Notes :=
  ⟨noteMeta t l m g.seen, noteMaker t l m g.maker⟩

section Notes

variable {H : Table K} {k : K} {t : Nat} {l : Site} {m : Mem K T}

theorem noteMeta_other {u : Nat} (hu : u ≠ t) (seen : Nat → Nat) : noteMeta t l m seen u = seen u := by
  unfold noteMeta
  split
  · rw [update_of_ne hu]
  · rfl

theorem noteMaker_made {a : Word} (ha : m.entries a ≠ none) (maker : Word → Nat) :
    noteMaker t l m maker a = maker a := by
  unfold noteMaker
  split
  · next b =>
    split
    · next hb =>
      rw [update_of_ne]
      rintro rfl
      exact ha (Option.isNone_iff_eq_none.mp hb)
    · rfl
  · rfl

/-- What one access does to the memory and the notes. -/
structure NoteMove (H : Table K) (k : K) (t : Nat) (x y : Mem K T × Notes) : Prop where
  key : KeyMove H k t x.1 y.1
  seen : ∀ u, u ≠ t → y.2.seen u = x.2.seen u
  maker : ∀ a, x.1.entries a ≠ none → y.2.maker a = x.2.maker a

theorem noteMove_refl (t : Nat) (x : Mem K T × Notes) : NoteMove H k t x x :=
  ⟨keyMove_refl t x.1, fun _ _ => rfl, fun _ _ => rfl⟩

theorem KeyMove.noted {x : Mem K T × Notes} (h : KeyMove H k t x.1 m) (l : Site) :
    NoteMove H k t x (m, noteAll t l x.1 x.2) :=
  ⟨h, fun _ hu => noteMeta_other hu _, fun _ ha => noteMaker_made ha _⟩

theorem KeyMove.unnoted {x : Mem K T × Notes} (h : KeyMove H k t x.1 m) :
    NoteMove H k t x (m, x.2) :=
  ⟨h, fun _ _ => rfl, fun _ _ => rfl⟩

end Notes

def onceCtx (H : Table K) (k : K) (ok : Nat × Site → Mem K T × Notes → Prop) (t : Nat) :
    Ctx (Nat × Site) (Mem K T × Notes) :=
  Ctx.pool (fun x => OneKey H k x.1) (NoteMove H k) noteMove_refl ok t

section Once

variable {H : Table K} {k : K} {t : Nat} {ok : Nat × Site → Mem K T × Notes → Prop}
  {x y : Mem K T × Notes}

theorem Others.keyMoves (h : Others (fun x : Mem K T × Notes => OneKey H k x.1) (NoteMove H k) t x y) :
    Others (OneKey H k) (KeyMove H k) t x.1 y.1 := by
  refine Relation.ReflTransGen.lift Prod.fst (fun a b hab => ?_) _ _ h
  obtain ⟨ha, hb, u, hu, hg⟩ := hab
  exact ⟨ha, hb, u, hu, hg.key⟩

variable {m : Mem K T}

theorem Others.ofKeyMoves {m' : Mem K T} (h : Others (OneKey H k) (KeyMove H k) t m m') :
    Others (Ruled H) (Ruling H) t m m' := by
  refine Relation.ReflTransGen.mono (fun a b hab => ?_) _ _ h
  obtain ⟨ha, hb, u, hu, hg⟩ := hab
  exact ⟨ha.ruled, hb.ruled, u, hu, hg.ruling⟩

variable {A : Mem K T × Notes → Prop}

theorem once_stable (hA : ∀ {u a b}, u ≠ t → OneKey H k a.1 → NoteMove H k u a b → A a → A b) :
    (onceCtx H k ok t).Stable A := by
  intro x y hr h0
  refine Others.kept ?_ hr h0
  intro u a b hu ha _ hm h
  exact hA hu ha hm h

theorem wp_once {α : Type} (hA : (onceCtx H k ok t).Stable A) {Q : α → Mem K T × Notes → Prop}
    {l : Site} {u : Mem K T → Mem K T} {n : Mem K T → Code K T α} (h0 : A x)
    (h : ∀ y, OneKey H k y.1 → A y → ok (t, l) y → KeyMove H k t y.1 (u y.1) ∧ wp (onceCtx H k ok t) Q ((n y.1).noted noteAll t) (u y.1, noteAll t l y.1 y.2)) :
    wp (onceCtx H k ok t) Q ((step l u n).noted noteAll t) x := by
  refine wp_step_of hA h0 fun y hi ha hok => ?_
  obtain ⟨hm, hn⟩ := h y hi ha hok
  exact ⟨hm.inv hi, hm.noted l, hn⟩

theorem wp_once_read {α β : Type} (hA : (onceCtx H k ok t).Stable A)
    {Q : β → Mem K T × Notes → Prop} {l : Site} {f : Mem K T → α} {p : α → Code K T β} (h0 : A x)
    (h : ∀ y, OneKey H k y.1 → A y → wp (onceCtx H k ok t) Q ((p (f y.1)).noted noteAll t) (y.1, noteAll t l y.1 y.2)) :
    wp (onceCtx H k ok t) Q ((Prog.read l f >>= p).noted noteAll t) x :=
  wp_once hA h0 fun y hi ha _ => ⟨keyMove_refl t y.1, h y hi ha⟩

theorem wp_once_cas {β : Type} (hA : (onceCtx H k ok t).Stable A) {Q : β → Mem K T × Notes → Prop}
    {l : Site} {q : Slot} {e d : Word} {note : Mem K T → Mem K T} {p : Bool → Code K T β} (h0 : A x)
    (hdone : ∀ y, OneKey H k y.1 → A y → ok (t, l) y → y.1.slots q = e → KeyMove H k t y.1 (note { y.1 with slots := update y.1.slots q d }) ∧ wp (onceCtx H k ok t) Q ((p true).noted noteAll t) (note { y.1 with slots := update y.1.slots q d }, noteAll t l y.1 y.2))
    (hfail : ∀ y, OneKey H k y.1 → A y → wp (onceCtx H k ok t) Q ((p false).noted noteAll t) (y.1, noteAll t l y.1 y.2)) :
    wp (onceCtx H k ok t) Q ((casSlot l q e d note >>= p).noted noteAll t) x := by
  refine wp_once hA h0 fun y hi ha hok => ?_
  by_cases he : y.1.slots q = e
  · simp only [if_pos he, beq_iff_eq.mpr he]
    exact hdone y hi ha hok he
  · simp only [if_neg he, beq_eq_false_iff_ne.mpr he]
    exact ⟨keyMove_refl t y.1, hfail y hi ha⟩

theorem wp_once_scan {α : Type} (hA : (onceCtx H k ok t).Stable A)
    (hnote : ∀ l y, A y → A (y.1, noteAll t l y.1 y.2)) {Q : α → Mem K T → Prop} {p : Code K T α}
    (h0 : A x) (h : wp (scanCtx H k (fun _ _ => True) t) Q p x.1) :
    wp (onceCtx H k ok t) (fun a y => Q a y.1 ∧ A y) (p.noted noteAll t) x := by
  refine wp_noted
    (fun _ hi => hi) (fun _ _ hr => Others.keyMoves hr) (fun _ _ _ => trivial) hA
    (fun l y m hi ha hm hg => ?_) h0 h
  obtain rfl : y.1 = m := hg
  exact ⟨hi, (keyMove_refl t y.1).noted l, hnote l y ha⟩

/-! ## Threads that do not insert the key -/

/-- The operations of the thread are not about the key, and neither updates nor erases. -/
def Bystander (k : K) (t : Nat) (m : Mem K T) : Prop := m.Foreign k t ∧ m.Gentle t

theorem bystander_stable :
    (onceCtx H k ok t).Stable fun x : Mem K T × Notes => Bystander k t x.1 := by
  refine once_stable fun hu _ hm h => ?_
  exact ⟨fun op hop => h.1 op (hm.key.ruling.move.own_ops hu hop),
    fun op hop => h.2 op (hm.key.ruling.move.own_ops hu hop)⟩

theorem Working.keyMove {m' : Mem K T} (h : Working H t m m') (hp : 2 ≤ H.hashpower)
    (hi : OneKey H k m) (hb : Bystander k t m) : KeyMove H k t m m' ∧ Bystander k t m' := by
  refine ⟨⟨h.ruling, h.move.keyStep hp hi.ruled hb.1 hb.2⟩, ?_⟩
  simp only [Bystander, Mem.Foreign, Mem.Gentle, h.access.ops]
  exact hb

theorem Move.keyMove_call {ops : List (Nat × Op K T)} {calls : K → List (Op K T)}
    (h : Move H t m { m with ops := ops, calls := calls }) (hi : OneKey H k m) :
    KeyMove H k t m { m with ops := ops, calls := calls } :=
  ⟨⟨h, .call ops calls⟩, h.keyStep_still hi.ruled rfl rfl rfl⟩

variable [DecidableEq K]

theorem code_bystander (hp : 2 ≤ H.hashpower) {op : Op K T} (hi : Inv H m)
    (hcall : insertsOnly.atCall t op m) (he : enter t op m = some x.1) (hb : Bystander k t x.1) :
    wp (onceCtx H k ok t)
      (fun _ y => Move H t y.1 { y.1 with ops := y.1.ops.filter fun z => z.1 != t })
      ((code H t op).noted noteAll t) x := by
  refine wp_mono (fun _ _ _ h => h.1) (wp_noted (D := onceCtx H k ok t)
    (fun _ hi => hi.ruled) (fun _ _ hr => Others.ofKeyMoves (Others.keyMoves hr)) (fun _ _ _ => trivial)
    bystander_stable (fun l y m hi ha _ hg => ?_) hb (code_ruled hp insertsOnly_tame hi hcall he))
  obtain ⟨hm, hb'⟩ := Working.keyMove hg hp hi ha
  exact ⟨hm.inv hi, hm.noted l, hb'⟩

end Once

/-! ## Threads that insert the key -/

section Put

variable {H : Table K} {k : K} {t : Nat} {m m' : Mem K T} {e : Slot} {w : Word}

/-- A word comes into an empty slot. -/
structure Puts (H : Table K) (t : Nat) (e : Slot) (w : Word) (m m' : Mem K T) : Prop where
  move : Move H t m m'
  publish : Publish t m m'
  slots : m'.slots = update m.slots e w
  src : m'.src = m.src
  hold : m'.hold = m.hold
  empty : m.slots e = 0
  word : w ≠ 0

theorem Puts.other (h : Puts H t e w m m') {q : Slot} (hq : q ≠ e) : m'.slots q = m.slots q := by
  rw [h.slots, update_of_ne hq]

theorem Puts.safe (h : Puts H t e w m m') {q : Slot} : m'.Safe q ↔ m.Safe q := by
  obtain ⟨hl, hb, hc⟩ := Slot.mk.inj h.src
  simp only [Mem.Safe, hl, hb, hc, h.hold]

theorem Puts.last (h : Puts H t e w m m') : m'.cur.lastLevel = m.cur.lastLevel :=
  congrArg Slot.level h.src

theorem Puts.origin (h : Puts H t e w m m') (hi : Inv H m) {q : Slot} {w' : Word} (ha : m'.At k q w') :
    q = e ∧ w' = w ∨ m.At k q w' := by
  by_cases hq : q = e
  · subst hq
    have := ha.1
    rw [h.slots, update_self] at this
    exact .inl ⟨rfl, this.symm⟩
  · exact .inr (h.move.at_before hi ha (h.other hq))

theorem Puts.keyMove (h : Puts H t e w m m') (hi : Ruled H m)
    (hnew : m.KeepsAs k w ∨ First H k m m' e) : KeyMove H k t m m' := by
  refine ⟨⟨h.move, h.publish⟩, fun p w' hs ha => ?_, fun q _ hne => ?_, ?_⟩
  · have hp : p ≠ e := by
      rintro rfl
      exact ha.ne_zero h.empty
    exact ⟨p, h.safe.mpr hs, h.move.at_same hi.inv ha (h.other hp), .inl rfl⟩
  · by_cases hq : q = e
    · subst hq
      rw [h.slots, update_self]
      exact h.word
    · rw [h.other hq]
      exact hne
  · rcases hnew with hkeep | hfirst
    · refine .inl fun q w' hq ha => ?_
      rcases h.origin hi.inv ha with ⟨_, rfl⟩ | ha
      · obtain ⟨p, hs, hap⟩ := hkeep
        exact ⟨p, hs.1, hap⟩
      · exact ⟨q, h.last ▸ hq, ha⟩
    · exact .inr ⟨e, hfirst⟩

theorem Puts.first (h : Puts H t e w m m') (hi : Ruled H m) (hl : m.Lacks k)
    (hlive : m.cur.lastLevel ≤ e.level) (hfirm : m.cur.Firm e)
    (hbest : ∀ s, H.IsSlot k s → s.level ≤ m.cur.firstLevel → H.Before k s e → m.slots s ≠ 0)
    (ha : m'.At k e w) : First H k m m' e where
  lacks := hl
  empty := h.empty
  firm := hfirm
  best := hbest
  safe := h.safe.mpr (hi.resting.safe hlive hfirm)
  here := ⟨w, ha⟩
  only := by
    intro q w' ha hq
    rcases h.origin hi.inv ha with ⟨rfl, _⟩ | ha
    · rfl
    · exact absurd ha (hl q w' (h.last ▸ hq))

end Put

/-- An insert of the key with its entry. `Pre` is whether the key was in the table when it
was called. Once the word of the entry is in a slot it is there to stay. -/
structure Holder (H : Table K) (k : K) (v : T) (a : Word) (t : Nat) (Pre : Prop) (pub : Bool)
    (x : Mem K T × Notes) : Prop where
  mine : Mine t (.insert k v a) a (k, v) pub x.1
  maker : x.2.maker a = t
  pre : Pre → x.1.Keeps k
  kept : pub = true → ¬ Pre ∧ x.1.KeepsAs k (setPartial a (H.par k))

section Insert

variable {H : Table K} {k : K} {v : T} {a : Word} {t : Nat} {Pre : Prop} {pub : Bool}
  {ok : Nat × Site → Mem K T × Notes → Prop} {x y : Mem K T × Notes} {ptr : Nat} {mt : Meta}
  {m : Mem K T}

theorem Holder.made (h : Holder H k v a t Pre pub x) : x.1.entries a ≠ none := by
  rw [h.mine.entry]
  nofun

/-- The entry is the thread's own, and the words of the key are kept by all. -/
theorem Holder.step (h : Holder H k v a t Pre pub x) {u : Nat} (hm : NoteMove H k u x y)
    (hmine : Mine t (.insert k v a) a (k, v) pub y.1) : Holder H k v a t Pre pub y where
  mine := hmine
  maker := (hm.maker a h.made).trans h.maker
  pre := fun hpre => hm.key.key.keeps (h.pre hpre)
  kept := fun hpub => ⟨(h.kept hpub).1, hm.key.key.keepsAs (h.kept hpub).2⟩

theorem holder_stable : (onceCtx H k ok t).Stable (Holder H k v a t Pre pub) :=
  once_stable fun hu hi hm h => h.step hm (h.mine.move rfl hi.ruled.inv hu hm.key.ruling.move)

theorem Holder.noted (h : Holder H k v a t Pre pub x) (l : Site) :
    Holder H k v a t Pre pub (x.1, noteAll t l x.1 x.2) :=
  h.step ((keyMove_refl t x.1).noted l) h.mine

/-- The insert and the chain it works on. -/
def HolderSnap (H : Table K) (k : K) (v : T) (a : Word) (t : Nat) (Pre : Prop) (pub : Bool) (ptr : Nat)
    (mt : Meta) (x : Mem K T × Notes) : Prop :=
  Holder H k v a t Pre pub x ∧ Snap ptr mt x.1

theorem snap_once : (onceCtx H k ok t).Stable fun x : Mem K T × Notes => Snap ptr mt x.1 :=
  once_stable fun _ _ hm h => h.later hm.key.ruling.move.later

theorem holderSnap_stable : (onceCtx H k ok t).Stable (HolderSnap H k v a t Pre pub ptr mt) :=
  fun x y hr h => ⟨holder_stable x y hr h.1, snap_once x y hr h.2⟩

theorem wp_once_quiet {α : Type} {A : Mem K T × Notes → Prop} (hA : (onceCtx H k ok t).Stable A)
    (hnote : ∀ l y, A y → A (y.1, noteAll t l y.1 y.2)) {Q : α → Mem K T → Prop} {p : Code K T α}
    (h0 : A x) (h : wp (quiet H (fun _ _ => True) t) Q p x.1) :
    wp (onceCtx H k ok t) (fun a y => Q a y.1 ∧ A y) (p.noted noteAll t) x := by
  refine wp_noted (D := onceCtx H k ok t)
    (fun _ hi => hi.ruled.inv)
    (fun _ _ hr => (Others.rulings (Others.ofKeyMoves (Others.keyMoves hr))).1)
    (fun _ _ _ => trivial) hA (fun l y m hi ha hm hg => ?_) h0 h
  obtain rfl : y.1 = m := hg
  exact ⟨hi, (keyMove_refl t y.1).noted l, hnote l y ha⟩

theorem expand_once (hs : Snap ptr mt x.1) (h0 : Holder H k v a t Pre pub x) :
    wp (onceCtx H k ok t) (fun _ y => Holder H k v a t Pre pub y)
      ((expand H ptr mt).noted noteAll t) x := by
  let C : Ctx Site (Mem K T) := (Ctx.pool (OneKey H k) (KeyMove H k) keyMove_refl
    (fun _ _ => True) t).guarBy (fun m m' => KeyMove H k t m m' ∧ Expanded m m')
      fun m => ⟨keyMove_refl t m, .refl m⟩
  have hmoves : wp (expanding H (fun _ _ => True) t) _ (expand H ptr mt) x.1 := expand_wp hs
  have hflags : wp (flagCtx (fun _ _ => True) t) _ (expand H ptr mt) x.1 :=
    expand_flag kept_true trivial hs
  have hboth := wp_and (C := C) hmoves hflags (fun m hi => ⟨hi.ruled.inv, hi.ruled.chained⟩)
    (fun m m' hr => Others.rulings (Others.ofKeyMoves hr)) (fun _ _ h => ⟨h, h⟩)
    (fun m m' hi _ hm _ ha => by
      have hk : KeyMove H k t m m' := ⟨⟨hm.1, ha.publish⟩,
        hm.1.keyStep_still hi.ruled hm.2.slots hm.2.src hm.2.hold⟩
      exact ⟨hk.inv hi, hk, hm.2⟩)
  refine wp_mono (fun _ _ _ h => h.2) (wp_noted (C := C) (D := onceCtx H k ok t)
    (fun _ hi => hi) (fun _ _ hr => Others.keyMoves hr) (fun _ _ _ => trivial) holder_stable
    (fun l y m hi ha hi' hg => ?_) h0 hboth)
  exact ⟨hi', hg.1.noted l, ha.step (hg.1.noted l) (ha.mine.expanded hg.2)⟩

variable [DecidableEq K]

/-- `find` of an insert, whose last load of the meta object is noted. -/
def Found (H : Table K) (k : K) (t : Nat) (f : Find) (x : Mem K T × Notes) : Prop :=
  f.result.isFound = true ∨ ∃ ptr mt, Surveyed H k ptr mt f x.1 ∧ x.2.seen t = ptr

variable {f : Find}

omit [DecidableEq K] in
theorem found_stable : (onceCtx H k ok t).Stable fun x : Mem K T × Notes => Found H k t f x := by
  refine once_stable fun hu hi hm h => ?_
  rcases h with h | ⟨ptr, mt, hs, hseen⟩
  · exact .inl h
  · exact .inr ⟨ptr, mt, hs.move hi hm.key, (hm.seen t hu.symm).trans hseen⟩

theorem findLoop_once (hp : 2 ≤ H.hashpower) : ∀ n ptr' mt' last x, Snap ptr' mt' x.1 →
    mt'.lastLevel ≤ mt'.firstLevel → HolderSnap H k v a t Pre pub ptr mt x →
    wp (onceCtx H k ok t) (fun f y => Found H k t f y ∧ HolderSnap H k v a t Pre pub ptr mt y)
      ((findLoop H t ⟨k, false, false⟩ n ptr' mt' last).noted noteAll t) x := by
  intro n
  induction n with
  | zero => exact fun _ _ _ _ _ _ _ => trivial
  | succ n ih =>
    intro ptr' mt' last x hs hle h0
    have hst : (onceCtx H k ok t).Stable fun x =>
        HolderSnap H k v a t Pre pub ptr mt x ∧ Snap ptr' mt' x.1 := fun x y hr h =>
      ⟨holderSnap_stable x y hr h.1, snap_once x y hr h.2⟩
    have hnote : ∀ l y, (HolderSnap H k v a t Pre pub ptr mt y ∧ Snap ptr' mt' y.1) →
        HolderSnap H k v a t Pre pub ptr mt (y.1, noteAll t l y.1 y.2) ∧ Snap ptr' mt' y.1 :=
      fun l y h => ⟨⟨h.1.1.noted l, h.1.2⟩, h.2⟩
    rw [findLoop, noted_bind]
    refine wp_bind (wp_mono ?_ (wp_once_quiet hst hnote ⟨h0, hs⟩
      (collectLevels_wp maxLevel mt'.lastLevel x.1 hs hle)))
    intro levels y hi hy
    obtain ⟨rfl, hy⟩ := hy
    rw [noted_bind]
    refine wp_bind (wp_mono ?_ (wp_once_scan hst hnote hy
      (visitLevels_scan hp _ 0 _ y.1 (hy.2.below hi last))))
    intro v y hi hy
    obtain ⟨hv, hy⟩ := hy
    cases v with
    | done f =>
      refine wp_ret_of holderSnap_stable hy.1 fun z _ hz => ?_
      exact ⟨.inl hv, hz⟩
    | retry f => exact hv.elim
    | next f e =>
      have htop : mt'.lastLevel + (0 + (mt'.firstLevel + 1 - mt'.lastLevel)) = mt'.firstLevel + 1 := by
        omega
      rw [htop] at hv
      have hbelow : (scanCtx H k (fun _ _ => True) t).Stable
          (Below H k ptr' mt' (mt'.firstLevel + 1) (.next f e) : Mem K T → Prop) := below_stable
      have hst' : (onceCtx H k ok t).Stable fun x => HolderSnap H k v a t Pre pub ptr mt x ∧
          Below H k ptr' mt' (mt'.firstLevel + 1) (.next f e) x.1 := fun x y hr h =>
        ⟨holderSnap_stable x y hr h.1, hbelow _ _ (Others.keyMoves hr) h.2⟩
      refine wp_once_read hst' ⟨hy.1, hv⟩ fun z hi hz => ?_
      have hholder : HolderSnap H k v a t Pre pub ptr mt (z.1, noteAll t .metaLoad z.1 z.2) :=
        ⟨hz.1.1.noted _, hz.1.2⟩
      split
      · next hptr =>
        have hfound : Found H k t f (z.1, noteAll t .metaLoad z.1 z.2) :=
          .inr ⟨ptr', mt', Below.surveyed hz.2 hi.ruled.inv, by
            rw [← hptr]
            exact update_self ..⟩
        exact wp_ret_of
          (fun x y hr h => ⟨found_stable x y hr h.1, holderSnap_stable x y hr h.2⟩)
          ⟨hfound, hholder⟩ fun _ _ h => h
      · exact ih _ _ _ _ (snap_cur z.1) (Nat.le_of_lt hi.ruled.inv.chain) hholder

/-- What an insert of the key may do at its compare-exchange. -/
def Timely (ok : Nat × Site → Mem K T × Notes → Prop) (k : K) : Prop :=
  ∀ t q x v a, ok (t, .insertCas q) x → (t, .insert k v a) ∈ x.1.ops → x.1.slots q = 0 →
    x.1.metaPtr = x.2.seen t ∧ x.1.cur.Firm q

omit [DecidableEq K] in
theorem Holder.puts (h : Holder H k v a t Pre pub x) (hne : a ≠ 0) (haddr : addr a = a) {e : Slot}
    (he : H.IsSlot k e) (htop : e.level ≤ x.1.cur.firstLevel) (hz : x.1.slots e = 0) :
    Puts H t e (setPartial a (H.par k)) x.1 (Mem.disown a
      { x.1 with slots := update x.1.slots e (setPartial a (H.par k)) }) where
  move := by
    have hput := Move.put (.insert k v a) k v e (setPartial a (H.par k)) h.mine.running rfl
      (by rw [addr_setPartial haddr]; exact h.mine.entry) (h.mine.placed hne haddr he)
      (fun u hu => h.mine.owned (by rw [addr_setPartial haddr] at hu; exact hu)) htop (.inl hz)
    rw [addr_setPartial haddr] at hput
    exact hput
  publish := .same ⟨rfl, rfl, rfl, rfl, rfl⟩ fun _ => .inl ⟨rfl, rfl, rfl⟩
  slots := rfl
  src := rfl
  hold := rfl
  empty := hz
  word := by
    intro hw
    have := addr_setPartial haddr (H.par k)
    rw [hw, addr_zero] at this
    exact hne this.symm

/-- A round of the insert after its search for a vacancy. -/
structure Choice (H : Table K) (k : K) (t : Nat) (check : Bool) (f : Find) (ptr : Nat) (mt : Meta)
    (x : Mem K T × Notes) : Prop where
  snap : Snap ptr mt x.1
  found : check = true → Found H k t f x
  emptied : check = false → Emptied H k x.1.cur.firstLevel f

variable {check : Bool}

omit [DecidableEq K] in
theorem choice_stable :
    (onceCtx H k ok t).Stable (Choice H k t check f ptr mt : Mem K T × Notes → Prop) := by
  intro x y hr h
  refine ⟨snap_once x y hr h.snap, fun hc => found_stable x y hr (h.found hc), fun hc => ?_⟩
  refine once_stable (A := fun x : Mem K T × Notes => Emptied H k x.1.cur.firstLevel f) ?_ x y hr
    (h.emptied hc)
  exact fun _ _ hm h => ⟨h.1.mono hm.key.ruling.move.later.first, h.2⟩

omit [DecidableEq K] in
theorem Choice.vacant (h : Choice H k t check f ptr mt x) (hi : Inv H x.1)
    (hf : f.result.isFound = false) (hv : f.result.isVacancy = true) :
    ∃ e, f.e = some e ∧ addr f.oldE = 0 ∧ H.IsSlot k e ∧ e.level ≤ x.1.cur.firstLevel := by
  cases check with
  | false => exact (h.emptied rfl).1 hv
  | true =>
    rcases h.found rfl with hy | ⟨ptr', mt', hs, _⟩
    · rw [hf] at hy
      cases hy
    · obtain ⟨e, he⟩ := hs.picked.vacant hv
      have htop := (hs.scanning.snap.bounds hi).2.2
      exact ⟨e, he, by rw [hs.picked.oldE, addr_zero], hs.picked.slot e he,
        Nat.le_trans (hs.top e he) htop⟩

theorem choose_once (hp : 2 ≤ H.hashpower) (hs : Snap ptr mt x.1)
    (hle : mt.lastLevel ≤ mt.firstLevel) (h0 : Holder H k v a t Pre pub x) :
    wp (onceCtx H k ok t) (fun r y => Choice H k t check r.1 r.2.1 r.2.2 y ∧
        Holder H k v a t Pre pub y)
      (noted noteAll t (if check = true then do
          let f ← find H t ⟨k, false, false⟩ ptr mt
          pure (f, ptr, mt)
        else findEmptySlot H k ptr mt)) x := by
  cases check with
  | true =>
    rw [if_pos rfl, noted_bind]
    refine wp_map (wp_mono ?_
      (findLoop_once hp H.retries ptr mt none x hs hle ⟨h0, hs⟩))
    intro f y _ hy
    exact ⟨⟨hy.2.2, fun _ => hy.1, nofun⟩, hy.2.1⟩
  | false =>
    refine wp_mono ?_ (wp_once_quiet holder_stable (fun l y h => h.noted l) h0
      (findEmptySlotLoop_wp H.retries ptr mt x.1 hs hle))
    intro r y _ hy
    exact ⟨⟨hy.1.2, nofun, fun _ => hy.1.1⟩, hy.2⟩

omit [DecidableEq K] in
theorem Holder.put (h : Holder H k v a t Pre pub x) (hi : OneKey H k x.1) (hok : Timely ok k)
    (hne : a ≠ 0) (haddr : addr a = a) (hcheck : check = !pub) {e : Slot}
    (hc : Choice H k t check f ptr mt x) (he : f.e = some e) (hf : f.result.isFound = false)
    (hv : f.result.isVacancy = true) (hz : x.1.slots e = f.oldE) (hokx : ok (t, .insertCas e) x) :
    KeyMove H k t x.1 (Mem.disown a
        { x.1 with slots := update x.1.slots e (setPartial a (H.par k)) }) ∧
      Holder H k v a t Pre true (Mem.disown a
        { x.1 with slots := update x.1.slots e (setPartial a (H.par k)) },
        noteAll t (.insertCas e) x.1 x.2) := by
  obtain ⟨e', he', hzero, hslot, htop⟩ := hc.vacant hi.ruled.inv hf hv
  cases he.symm.trans he'
  have hempty : x.1.slots e = 0 := hi.ruled.inv.placed.addr_eq_zero.mp (by rw [hz]; exact hzero)
  have hputs := h.puts hne haddr hslot htop hempty
  have hmine := h.mine.put e (setPartial a (H.par k))
  have haddr' : addr (setPartial a (H.par k)) = a := addr_setPartial haddr _
  cases pub with
  | true =>
    -- the word is in the table: this slot adds nothing new
    have hkey := hputs.keyMove hi.ruled (.inl (h.kept rfl).2)
    exact ⟨hkey, h.step (hkey.noted _) hmine⟩
  | false =>
    subst hcheck
    obtain ⟨hptr, hfirm⟩ := hok t e x v a hokx h.mine.running hempty
    rcases hc.found rfl with hy | ⟨ptr', mt', hs, hseen⟩
    · rw [hf] at hy
      cases hy
    · obtain ⟨hl, hlive, hbest⟩ := hs.vacancy he (hptr.trans hseen) hempty hfirm
      have hat : Mem.At (Mem.disown a { x.1 with
          slots := update x.1.slots e (setPartial a (H.par k)) }) k e
          (setPartial a (H.par k)) :=
        Mem.at_of_entry (update_self ..) (by rw [haddr']; exact hne)
          (by rw [haddr']; exact hmine.entry)
      have hfirst := hputs.first hi.ruled hl hlive hfirm hbest hat
      have hkey := hputs.keyMove hi.ruled (.inr hfirst)
      have hpre : ¬ Pre := fun hpre => hl.not_keeps (h.pre hpre)
      exact ⟨hkey, hmine, ((hkey.noted (.insertCas e)).maker a h.made).trans h.maker,
        fun hp => absurd hp hpre, fun _ => ⟨hpre, e, hfirst.safe, hat⟩⟩

theorem insertLoop_once (hp : 2 ≤ H.hashpower) (hok : Timely ok k) (hne : a ≠ 0) (haddr : addr a = a) :
    ∀ n check flag x, Holder H k v a t Pre (!check) x →
    wp (onceCtx H k ok t) (fun r y => r.found = false → Holder H k v a t Pre true y)
      ((insertLoop H t k a (setPartial a (H.par k)) n check flag).noted noteAll t) x := by
  intro n
  induction n with
  | zero => exact fun _ _ _ _ => trivial
  | succ n ih =>
    intro check flag x h0
    have hret : ∀ x, Holder H k v a t Pre true x → wp (onceCtx H k ok t)
        (fun (r : Ret K T) y => r.found = false → Holder H k v a t Pre true y)
        ((pure { expanded := flag } : Code K T (Ret K T)).noted noteAll t) x := fun x hx =>
      wp_ret_of holder_stable hx fun _ _ h _ => h
    refine wp_once_read holder_stable h0 fun y hi hy => ?_
    rw [noted_bind]
    refine wp_bind (wp_mono ?_ (choose_once hp (snap_cur y.1) (Nat.le_of_lt hi.ruled.inv.chain)
      (hy.noted .metaLoad)))
    intro r z hi hz
    obtain ⟨f, ptr, mt⟩ := r
    obtain ⟨hc, hz⟩ := hz
    dsimp only at hc ⊢
    split
    · next hfound =>
      -- the entry is deleted only as long as it is in no slot
      have hdup : check = true := by
        cases check with
        | true => rfl
        | false =>
          rw [(hc.emptied rfl).2] at hfound
          cases hfound
      subst hdup
      refine wp_once holder_stable hz fun y hi hy _ =>
        ⟨?_, wp_ret fun _ _ _ h => nomatch h⟩
      have hmove : Move H t y.1 (y.1.release a) := .release a hy.mine.owner
      exact ⟨⟨hmove, .same ⟨rfl, rfl, rfl, rfl, rfl⟩ fun _ => .inl ⟨rfl, rfl, rfl⟩⟩,
        hmove.keyStep_still hi.ruled rfl rfl rfl⟩
    · next hfound =>
      have hfound : f.result.isFound = false := Bool.eq_false_iff.mpr hfound
      split
      · next hvac =>
        obtain ⟨e, he, _⟩ := hc.vacant hi.ruled.inv hfound hvac.1
        have hst : (onceCtx H k ok t).Stable fun x => Choice H k t check f ptr mt x ∧
            Holder H k v a t Pre (!check) x :=
          fun x y hr h => ⟨choice_stable x y hr h.1, holder_stable x y hr h.2⟩
        simp only [he]
        refine wp_once_cas hst ⟨hc, hz⟩ (fun y hi hy hoky hold => ?_)
          fun y hi hy => ih check flag _ (hy.2.noted _)
        obtain ⟨hkey, hput⟩ := hy.2.put hi hok hne haddr (by simp) hy.1 he hfound hvac.1 hold hoky
        refine ⟨hkey, ?_⟩
        rw [if_pos rfl]
        split
        · refine wp_once_read holder_stable hput fun y _ hy => ?_
          split
          · exact ih false flag _ (hy.noted _)
          · exact hret _ (hy.noted _)
        · exact hret _ hput
      · rw [noted_bind]
        refine wp_bind (wp_mono ?_ (expand_once hc.snap hz))
        exact fun _ y _ hy => ih check true y hy

theorem genericInsert_once (hp : 2 ≤ H.hashpower) (hok : Timely ok k)
    (hop : (t, .insert k v a) ∈ x.1.ops) :
    wp (onceCtx H k ok t) (fun r y => r.found = false →
        addr a = a ∧ Holder H k v a t (x.1.Keeps k) true y)
      ((genericInsert H t k v a).noted noteAll t) x := by
  have hst : (onceCtx H k ok t).Stable fun y => (t, .insert k v a) ∈ y.1.ops ∧
      (x.1.Keeps k → y.1.Keeps k) :=
    once_stable fun hu _ hm h => ⟨hm.key.ruling.move.ops_kept hu h.1,
      fun hk => hm.key.key.keeps (h.2 hk)⟩
  rw [genericInsert, noted_bind]
  refine wp_bind (wp_once hst ⟨hop, id⟩ fun y hi hy _ => ?_)
  by_cases hnew : a ≠ 0 ∧ addr a = a ∧ y.1.entries a = none
  · simp only [if_pos hnew]
    have hmove : Move H t y.1 (y.1.allocate t a (k, v)) :=
      .allocate (.insert k v a) (k, v) a hy.1 rfl hnew
    have hkey : KeyMove H k t y.1 (y.1.allocate t a (k, v)) :=
      ⟨⟨hmove, .same ⟨rfl, rfl, rfl, rfl, rfl⟩ fun _ => .inl ⟨rfl, rfl, rfl⟩⟩,
        hmove.keyStep_still hi.ruled rfl rfl rfl⟩
    have hstart : Holder H k v a t (x.1.Keeps k) false
        (y.1.allocate t a (k, v), noteAll t (.entryNew a) y.1 y.2) := by
      refine ⟨⟨hy.1, update_self .., update_self ..⟩, ?_,
        fun hk => hkey.key.keeps (hy.2 hk), by simp⟩
      simp [noteAll, noteMaker, hnew.2.2]
    refine ⟨hkey, wp_ret_of holder_stable hstart fun z _ hz => ?_⟩
    exact wp_mono (fun _ _ _ h hf => ⟨hnew.2.1, h hf⟩)
      (insertLoop_once hp hok hnew.1 hnew.2.1 H.retries true false z hz)
  · simp only [if_neg hnew]
    exact ⟨keyMove_refl t y.1, trivial⟩

end Insert

/-! ## Runs -/

/-- There are no updates and no erases. An insert of the key succeeds only while the meta
object that its thread loaded last is published, and not in the bottom level of a table that
is being resized. -/
def timelyInserts [DecidableEq K] (k : K) : Cond (Nat × Site) (Mem K T × (Nat → Nat)) (Op K T) where
  atCall t op x := insertsOnly.atCall t op x.1
  atStep
    | (t, .insertCas q), x => (∃ y ∈ x.1.ops, y.1 = t ∧ y.2.target = some k) → x.1.slots q = 0 →
        x.1.metaPtr = x.2 t ∧ x.1.cur.Firm q
    | _, _ => True

section Runs

variable [DecidableEq K] {H : Table K} {k : K}

/-- The same, where more is noted. -/
def timelyNotes (k : K) : Cond (Nat × Site) (Mem K T × Notes) (Op K T) where
  atCall t op x := (timelyInserts k).atCall t op (x.1, x.2.seen)
  atStep l x := (timelyInserts k).atStep l (x.1, x.2.seen)

theorem timelyNotes_timely : Timely (timelyNotes (T := T) k).atStep k :=
  fun _ _ _ _ _ h hop => h ⟨_, hop, rfl, rfl⟩

/-- What an insert of the key that succeeds leaves. -/
def Succeeded (H : Table K) (k : K) (t : Nat) (op : Op K T) (x : Mem K T × Notes) (r : Ret K T)
    (y : Mem K T × Notes) : Prop :=
  ∀ v a, op = .insert k v a → r.found = false → addr a = a ∧ y.2.maker a = t ∧
    ¬ x.1.Keeps k ∧ y.1.KeepsAs k (setPartial a (H.par k))

omit [DecidableEq K] in
theorem KeyMove.of_entered {t : Nat} {op : Op K T} {m m' : Mem K T} (hi : OneKey H k m)
    (hcall : insertsOnly.atCall t op m) (he : Entered t op m m') : KeyMove H k t m m' := by
  have hm : Move H t m m' := he.move (insertsOnly_tame (H := H).free t op m hcall)
  have heq := he.eq
  generalize m'.calls = calls at heq
  subst heq
  exact hm.keyMove_call hi

omit [DecidableEq K] in
theorem Entered.own {t : Nat} {op op' : Op K T} {m m' : Mem K T} (h : Entered t op m m')
    (hop : (t, op') ∈ m'.ops) : op' = op := by
  rw [h.eq] at hop
  rcases List.mem_cons.mp hop with heq | hop
  · exact congrArg Prod.snd heq
  · exact absurd rfl (h.idle _ hop)

variable {x : Mem K T × Notes}

theorem code_once (hp : 2 ≤ H.hashpower) {t : Nat} {op : Op K T} {m : Mem K T}
    {ok : Nat × Site → Mem K T × Notes → Prop} (hok : Timely ok k) (hi : Inv H m)
    (hcall : insertsOnly.atCall t op m) (he : enter t op m = some x.1) :
    wp (onceCtx H k ok t) (fun r y =>
        Move H t y.1 { y.1 with ops := y.1.ops.filter fun z => z.1 != t } ∧
          ∀ v a, op = .insert k v a → r.found = false →
            addr a = a ∧ Holder H k v a t (x.1.Keeps k) true y)
      ((code H t op).noted noteAll t) x := by
  have hent := entered he
  by_cases htarget : op.target = some k
  · -- neither an update nor an erase: an insert of the key
    cases op with
    | insert k' v a =>
      obtain rfl : k' = k := by
        injection htarget
      have ht : t ≠ 0 := fun h => nomatch hent.rehasher.mpr h
      refine wp_mono (fun r y _ h => ⟨.leave fun h => absurd h ht, ?_⟩)
        (genericInsert_once hp hok hent.running)
      intro v' a' heq hf
      cases heq
      exact h hf
    | update _ _ _ | erase _ => exact nomatch hcall.1
    | search _ => cases htarget
    | resize => cases htarget
  · have hb : Bystander k t x.1 := by
      refine ⟨fun op' hop' => ?_, fun op' hop' => ?_⟩
      · rw [hent.own hop']
        exact htarget
      · rw [hent.own hop']
        exact hcall.1
    refine wp_mono (fun r y _ h => ⟨h, ?_⟩) (code_bystander hp hi hcall he hb)
    intro v a heq
    rw [heq] at htarget
    exact absurd rfl htarget

def onceOutline (hp : 2 ≤ H.hashpower) (k : K) :
    Outline ((obj H).noted (noteAll (K := K) (T := T))) (timelyNotes k) :=
  .ofMoves (fun x => OneKey H k x.1) (NoteMove H k) (Succeeded H k) noteMove_refl
    (by
      intro t op x y hi hcall he
      obtain ⟨m, hm, rfl⟩ := Option.map_eq_some_iff.mp he
      have hk := KeyMove.of_entered hi hcall (entered hm)
      exact ⟨hk.inv hi, hk.unnoted⟩)
    (by
      intro t op x y hi hcall he
      obtain ⟨m, hm, rfl⟩ := Option.map_eq_some_iff.mp he
      refine wp_mono (fun r z hz h => ?_)
        (code_once hp timelyNotes_timely hi.ruled.inv hcall hm)
      have hk : KeyMove H k t z.1 { z.1 with ops := z.1.ops.filter fun u => u.1 != t } :=
        h.1.keyMove_call hz
      refine ⟨hk.inv hz, hk.unnoted, fun v a heq hf => ?_⟩
      obtain ⟨haddr, hh⟩ := h.2 v a heq hf
      obtain ⟨hpre, hkept⟩ := hh.kept rfl
      exact ⟨haddr, hh.maker, hpre, hk.key.keepsAs hkept⟩)

/-- What stays in the table is not made again. -/
def Remains (k : K) (x y : Mem K T × Notes) : Prop :=
  ∀ w, x.1.KeepsAs k w → y.1.KeepsAs k w ∧ y.2.maker (addr w) = x.2.maker (addr w)

omit [DecidableEq K] in
theorem NoteMove.remains {t : Nat} {y : Mem K T × Notes} (h : NoteMove H k t x y) :
    Remains k x y := by
  intro w hw
  refine ⟨h.key.key.keepsAs hw, h.maker _ ?_⟩
  obtain ⟨p, _, ha⟩ := hw
  obtain ⟨v, hv⟩ := ha.entry
  rw [hv]
  nofun

omit [DecidableEq K] in
theorem Remains.trans {y z : Mem K T × Notes} (h : Remains k x y) (h' : Remains k y z) :
    Remains k x z := by
  intro w hw
  obtain ⟨hy, hm⟩ := h w hw
  obtain ⟨hz, hm'⟩ := h' w hy
  exact ⟨hz, hm'.trans hm⟩

/-- The call is an insert of the key that reports it as new. -/
def inserted (k : K) (r : Call (Op K T) (Ret K T)) : Bool :=
  match r.op with
  | .insert k' _ _ => k' = k && !r.ret.found
  | _ => false

theorem inserted_iff {r : Call (Op K T) (Ret K T)} :
    inserted k r = true ↔ ∃ v a, r.op = .insert k v a ∧ r.ret.found = false := by
  unfold inserted
  split <;> simp_all

omit [DecidableEq K] in
theorem length_filter_le_one {α : Type} {p : α → Bool} {l : List α}
    (h : l.Pairwise fun a b => p a = true → ¬ p b = true) : (l.filter p).length ≤ 1 := by
  have hf := h.filter p
  match hl : l.filter p with
  | [] => simp
  | [a] => simp
  | a :: b :: rest =>
    have ha : a ∈ l.filter p := by simp [hl]
    have hb : b ∈ l.filter p := by simp [hl]
    rw [hl] at hf
    exact absurd (List.mem_filter.mp hb).2 ((List.pairwise_cons.mp hf).1 b (by simp) (List.mem_filter.mp ha).2)

theorem no_second_insert {hp : 2 ≤ H.hashpower}
    {c : Cfg (Nat × Site) (Mem K T × Notes) (Op K T) (Ret K T)}
    (h : (onceOutline (T := T) hp k).Holds c) {r r' : Call (Op K T) (Ret K T)} (hr : r ∈ c.hist)
    (hr' : r' ∈ c.hist) (hturn : r.thread = r'.thread → r.stop < r'.start)
    (hin : inserted k r = true) : ¬ inserted k r' = true := by
  intro hin'
  have hremains : ∀ {i j : Nat} {x y}, i ≤ j → c.trail[i]? = some x → c.trail[j]? = some y → Remains k x y :=
    fun hij hi hj => h.evolves (E := Remains k) (fun _ _ hw => ⟨hw, rfl⟩) (fun _ _ _ => .trans)
      (fun _ _ hg => NoteMove.remains hg) hij hi hj
  have hend : ∀ {i : Nat} {x}, c.trail[i]? = some x → Remains k x c.mem := by
    intro i x hx
    have hlen := (List.getElem?_eq_some_iff.mp hx).1
    exact hremains (by omega) hx h.trail_mem
  obtain ⟨v, a, hop, hf⟩ := inserted_iff.mp hin
  obtain ⟨v', a', hop', hf'⟩ := inserted_iff.mp hin'
  obtain ⟨x₀, x₁, _, hstop, _, hpost⟩ := h.hist r hr
  obtain ⟨y₀, y₁, hstart', hstop', _, hpost'⟩ := h.hist r' hr'
  obtain ⟨haddr, hmaker, _, hkept⟩ := hpost v a hop hf
  obtain ⟨haddr', hmaker', hnew', hkept'⟩ := hpost' v' a' hop' hf'
  -- at the end there is one word of the key, so both made the same entry
  obtain ⟨⟨p, hp, hat⟩, hm⟩ := hend hstop _ hkept
  obtain ⟨⟨p', hp', hat'⟩, hm'⟩ := hend hstop' _ hkept'
  have hw := h.mem_inv.same p p' _ _ hp.1 hp'.1 hat hat'
  have haa : a = a' := by
    have := congrArg addr hw
    rwa [addr_setPartial haddr, addr_setPartial haddr'] at this
  subst haa
  rw [addr_setPartial haddr] at hm hm'
  have hthread : r.thread = r'.thread := by
    rw [← hmaker, ← hmaker', ← hm, ← hm']
  -- the thread left its word in the table before its next call
  obtain ⟨⟨q, hq, hqa⟩, _⟩ := hremains (Nat.le_of_lt (hturn hthread)) hstop hstart' _ hkept
  exact hnew' ⟨q, _, hq, hqa⟩

/-- At most one insert of a key reports it as new. The inserts start where the key is not in
the table, after any calls. -/
theorem inserted_at_most_once (hp : 2 ≤ H.hashpower) {c₀ : Config K T}
    (h₀ : (obj H).Reach (calmRuns H) Init c₀)
    (habsent : ∀ q v, c₀.mem.cur.lastLevel ≤ q.level → q.level ≤ c₀.mem.cur.firstLevel →
      c₀.mem.entryAt q ≠ some (k, v))
    {c : Cfg (Nat × Site) (Mem K T × (Nat → Nat)) (Op K T) (Ret K T)}
    (h : ((obj H).noted noteMeta).Reach (timelyInserts k) (fun x => x.1 = c₀.mem) c) :
    (c.hist.filter (inserted k)).length ≤ 1 := by
  have hruled : Ruled H c₀.mem := ruled_of_reach hp calmRuns_tame h₀
  have hlacks : c₀.mem.Lacks k := by
    intro q w hq ha
    obtain ⟨v, hv⟩ := ha.2
    exact habsent q v hq (hruled.inv.below q ha.ne_zero) hv
  have hinit : ∀ x : Mem K T × Notes, x.1 = c₀.mem → OneKey H k x.1 := by
    intro x hx
    rw [hx]
    exact ⟨hruled, .inl hlacks, fun p _ w _ hlp _ ha _ => absurd ha (hlacks p w hlp)⟩
  have hseen : ∀ t l (m : Mem K T) (g : Notes), (noteAll t l m g).seen = noteMeta t l m g.seen :=
    fun _ _ _ _ => rfl
  have hstart : ∀ x : Mem K T × (Nat → Nat), x.1 = c₀.mem →
      ∃ g : Notes, g.seen = x.2 ∧ (x.1, g).1 = c₀.mem := fun x hx => ⟨⟨x.2, fun _ => 0⟩, rfl, hx⟩
  have hnotes : ∃ d, ((obj H).noted noteAll).Reach (timelyNotes k) (fun x => x.1 = c₀.mem) d ∧
      Obj.Renoted noteMeta noteAll Notes.seen c d :=
    h.renote hseen (fun _ _ _ h => h) (fun _ _ h => h) hstart
  obtain ⟨d, hd, hcd⟩ := hnotes
  have hholds := (onceOutline hp k).sound hinit hd
  rw [hcd.hist]
  refine length_filter_le_one (hd.in_turn.1.imp_of_mem fun hr hr' hturn => ?_)
  exact no_second_insert hholds hr hr' hturn

/-! ### Two threads insert one key -/

instance (t : Nat) (op : Op K T) (x : Mem K T × (Nat → Nat)) :
    Decidable ((timelyInserts k).atCall t op x) :=
  inferInstanceAs (Decidable (insertsOnly.atCall t op x.1))

instance (l : Nat × Site) (x : Mem K T × (Nat → Nat)) : Decidable ((timelyInserts k).atStep l x) :=
  match l with
  | (t, .insertCas q) => inferInstanceAs (Decidable
      ((∃ y ∈ x.1.ops, y.1 = t ∧ y.2.target = some k) → x.1.slots q = 0 →
        x.1.metaPtr = x.2 t ∧ (x.1.cur.lastLevel < q.level ∨ x.1.cur.isResizing = false)))
  | (_, .metaLoad) | (_, .metaCas) | (_, .upLoad _) | (_, .upCas _) | (_, .slotLoad _)
  | (_, .updateCas _ _) | (_, .eraseCas _ _) | (_, .dupCas _ _) | (_, .dupDeleteCas _ _)
  | (_, .copyCas _) | (_, .slotClear _) | (_, .entryLoad _) | (_, .entryNew _)
  | (_, .entryDelete _) | (_, .expandBucket) => .isTrue trivial

def evenKey : Word := unhash 2

/-- Thread 1 stops at its compare-exchange, thread 2 inserts the key, and thread 1 goes on. -/
def sameKeyTwice : List (Act (Op Word Nat)) :=
  callFor 1 (.insert evenKey 1 0x1000) 21 ++ callFor 2 (.insert evenKey 2 0x2000) 24 ++
    List.replicate 16 (.run 1)

theorem sameKeyTwice_run : (((obj smallTable).noted noteMeta).runUnder (timelyInserts evenKey)
    sameKeyTwice (Cfg.init (emptyTable, fun _ => 0))).any
    fun c => c.hist.map (fun r => (r.op, r.ret.found)) =
      [(.insert evenKey 2 0x2000, false), (.insert evenKey 1 0x1000, true)] := by
  decide +kernel

theorem inserted_at_most_once_sameKeyTwice :
    ∃ c : Cfg (Nat × Site) (Mem Word Nat × (Nat → Nat)) (Op Word Nat) (Ret Word Nat),
      ((obj smallTable).noted noteMeta).Reach (timelyInserts evenKey) (fun x => x.1 = emptyTable) c ∧
      c.hist.map (fun r => (r.op, r.ret.found)) =
        [(.insert evenKey 2 0x2000, false), (.insert evenKey 1 0x1000, true)] ∧
      (c.hist.filter (inserted evenKey)).length ≤ 1 := by
  obtain ⟨c, hc, h⟩ := (Option.any_eq_true _ _).mp sameKeyTwice_run
  have hreach : ((obj smallTable).noted noteMeta).Reach (timelyInserts evenKey)
      (fun x => x.1 = emptyTable) c := Obj.Reach.of_runUnder (.init rfl) hc
  exact ⟨c, hreach, of_decide_eq_true h, inserted_at_most_once (by decide) emptyTable_reach
    (fun q v _ _ hv => (entryAt_eq_some.mp hv).1 addr_zero) hreach⟩

/-- Thread 1 stops at its compare-exchange, and thread 2 makes the table grow. Thread 3
inserts the key into the new level, and thread 1 succeeds below it. -/
def staleVacancy : List (Act (Op Word Nat)) :=
  callFor 1 (.insert evenKey 1 0x1000) 21 ++
    ((List.range 16).flatMap fun j => callFor 2 (oddInsert j) (24 + j)) ++ callFor 2 (oddInsert 16) 88 ++
    callFor 3 (.insert evenKey 2 0x2000) 40 ++ List.replicate 3 (.run 1)

theorem staleVacancy_run : ((obj smallTable).runUnder insertsOnly staleVacancy
    (Cfg.init emptyTable)).any fun c => (c.hist.filter (inserted evenKey)).length = 2 := by
  decide +kernel

theorem inserted_twice : ∃ c : Config Word Nat, (obj smallTable).Reach insertsOnly Init c ∧
    1 < (c.hist.filter (inserted evenKey)).length := by
  obtain ⟨c, hreach, h⟩ := emptyTable_reach.of_any staleVacancy_run
  refine ⟨c, hreach, ?_⟩
  rw [h]
  decide

end Runs

end ShmPcc.ClevelHash
