import ShmPcc.Proofs.ClevelRuns

/-!
# Entries are deleted once, and not while a slot points to them

An entry is deleted by the insert or update that allocated it and did not need it, or by
the erase or `del_dup` that has taken its word out of a slot. The former have it to
themselves. The latter make sure of one slot only: the same word can be in a second slot,
because an insert was redone or the rehasher has copied it and not cleared it yet; the
rehasher can have it in its hand and copy it afterwards; and the operation that allocated
the entry can be about to put its word into another slot. `Mem.Last` says that nothing of
that is the case, and where the compare-exchanges before a deletion only succeed so, the
deletions are right, whatever else runs.

The proof is about pointers only, not about where the words are in the table: `Pointed`
relates the words in the slots and in the rehasher's hand to the entries that are there,
and `EntryMove` says what an access does to them.
-/

namespace ShmPcc.ClevelHash

open Function Prog

variable {K T : Type}

/-- The word in slot `q` is the last pointer to its entry, and there will be no other. -/
structure Mem.Last (m : Mem K T) (q : Slot) : Prop where
  sole : ∀ p, p ≠ q → m.slots p ≠ 0 → addr (m.slots p) ≠ addr (m.slots q)
  held : ∀ w, m.hold = .held w → addr w ≠ addr (m.slots q)
  created : ∀ x ∈ m.ops, ∀ y, x.2.created = some y → y.2 ≠ addr (m.slots q)

/-- Compare-exchanges that are followed by a deletion take the last pointer. -/
def lastPointers : Cond Site (Mem K T) (Op K T) where
  atCall _ _ _ := True
  atStep
    | .eraseCas q e, m | .dupDeleteCas q e, m => m.slots q = e → m.Last q
    | _, _ => True

/-! ## Pointers and entries -/

structure Pointed (m : Mem K T) : Prop where
  null : m.entries 0 = none
  slots : ∀ q, m.slots q ≠ 0 →
    m.entries (addr (m.slots q)) ≠ none ∧ m.owner (addr (m.slots q)) = none
  held : ∀ w, m.hold = .held w → m.entries (addr w) ≠ none ∧ m.owner (addr w) = none
  owned : ∀ a u, m.owner a = some u → m.entries a ≠ none

/-- What one access of thread `t` makes of the pointers and entries. -/
inductive EntryMove (t : Nat) (m : Mem K T) : Mem K T → Prop where
  | keep {m' : Mem K T} (hs : m'.slots = m.slots) (he : m'.entries = m.entries)
      (ho : m'.owner = m.owner) (hops : m'.ops = m.ops)
      (hh : m'.hold = m.hold ∨ t = 0 ∧ m'.hold = .none) : EntryMove t m m'
  | enter (op : Op K T) (calls : K → List (Op K T)) :
      EntryMove t m { m with ops := (t, op) :: m.ops, calls := calls }
  | leave : EntryMove t m { m with ops := m.ops.filter fun x => x.1 != t }
  | allocate (kv : K × T) (a : Word) (h0 : a ≠ 0) (hnew : m.entries a = none) :
      EntryMove t m (m.allocate t a kv)
  | release (a : Word) (h : m.owner a = some t) : EntryMove t m (m.release a)
  | put (q : Slot) (w : Word) (he : m.entries (addr w) ≠ none)
      (ho : ∀ u, m.owner (addr w) = some u → u = t) :
      EntryMove t m (Mem.disown (addr w) { m with slots := update m.slots q w })
  | take (q : Slot) (hne : m.slots q ≠ 0) (hlast : m.Last q) :
      EntryMove t m (Mem.own t (addr (m.slots q)) { m with slots := update m.slots q 0 })
  | dup (q : Slot) : EntryMove t m { m with slots := update m.slots q 0 }
  | hold (q : Slot) (ht : t = 0) (hne : m.slots q ≠ 0) :
      EntryMove t m { m with hold := .held (m.slots q) }
  | copy (w : Word) (dst : Slot) (ht : t = 0) (hh : m.hold = .held w) :
      EntryMove t m { m with slots := update m.slots dst w, hold := .copied w dst }
  | clear (q : Slot) (cursor : Nat) (ht : t = 0) : EntryMove t m { m with
        slots := update m.slots q 0
        cursor := cursor
        hold := .none }

section Moves

variable {t u : Nat} {m m' : Mem K T}

/-- A pointer stays right where its entry and the owner of it are left alone. -/
theorem Pointed.clear (hi : Pointed m) (q : Slot) {p : Slot} (hp : update m.slots q 0 p ≠ 0) :
    m.entries (addr (update m.slots q 0 p)) ≠ none ∧
      m.owner (addr (update m.slots q 0 p)) = none := by
  by_cases hpq : p = q
  · rw [hpq, update_self] at hp
    exact absurd rfl hp
  · rw [update_of_ne hpq] at hp ⊢
    exact hi.slots p hp

theorem EntryMove.inv (h : EntryMove t m m') (hi : Pointed m) : Pointed m' := by
  cases h with
  | keep hs he ho hops hh =>
    refine ⟨by rw [he]; exact hi.null, fun q => ?_, fun w hw => ?_, fun a u => ?_⟩
    · rw [hs, he, ho]
      exact hi.slots q
    · rw [he, ho]
      rcases hh with hh | ⟨_, hh⟩
      · exact hi.held w (hh ▸ hw)
      · rw [hh] at hw
        cases hw
    · rw [he, ho]
      exact hi.owned a u
  | enter op calls | leave => exact ⟨hi.null, hi.slots, hi.held, hi.owned⟩
  | allocate kv a h0 hnew =>
    have hkeep : ∀ b, m.entries b ≠ none ∧ m.owner b = none →
        (m.allocate t a kv).entries b ≠ none ∧ (m.allocate t a kv).owner b = none := by
      intro b hb
      have hba : b ≠ a := fun h => hb.1 (h ▸ hnew)
      simpa only [Mem.allocate, Mem.own, update_of_ne hba] using hb
    refine ⟨?_, fun q hq => hkeep _ (hi.slots q hq), fun w hw => hkeep _ (hi.held w hw),
      fun b u hb => ?_⟩
    · exact (update_of_ne h0.symm ..).trans hi.null
    · by_cases hba : b = a
      · subst hba
        simp [Mem.allocate, Mem.own]
      · simp only [Mem.allocate, Mem.own, update_of_ne hba] at hb ⊢
        exact hi.owned b u hb
  | release a h =>
    have hkeep : ∀ b, m.entries b ≠ none ∧ m.owner b = none →
        (m.release a).entries b ≠ none ∧ (m.release a).owner b = none := by
      intro b hb
      have hba : b ≠ a := by
        intro hba
        rw [hba, h] at hb
        cases hb.2
      simpa only [Mem.release, Mem.disown, update_of_ne hba] using hb
    refine ⟨?_, fun q hq => hkeep _ (hi.slots q hq), fun w hw => hkeep _ (hi.held w hw),
      fun b u hb => ?_⟩
    · by_cases h0 : (0 : Word) = a
      · rw [h0]
        exact update_self ..
      · exact (update_of_ne h0 ..).trans hi.null
    · by_cases hba : b = a
      · subst hba
        simp [Mem.release, Mem.disown] at hb
      · simp only [Mem.release, Mem.disown, update_of_ne hba] at hb ⊢
        exact hi.owned b u hb
  | put q w he ho =>
    have hdisown : ∀ b, m.owner b = none → (Mem.disown (addr w) m).owner b = none := by
      intro b hb
      simp only [Mem.disown, update_apply, hb, ite_self]
    refine ⟨hi.null, fun p hp => ?_, fun x hx => ?_, fun b u hb => ?_⟩
    · by_cases hpq : p = q
      · subst hpq
        simp only [Mem.disown, update_self]
        exact ⟨he, trivial⟩
      · simp only [Mem.disown, update_of_ne hpq] at hp ⊢
        exact ⟨(hi.slots p hp).1, hdisown _ (hi.slots p hp).2⟩
    · exact ⟨(hi.held x hx).1, hdisown _ (hi.held x hx).2⟩
    · simp only [Mem.disown, update_apply] at hb ⊢
      split at hb
      · cases hb
      · exact hi.owned b u hb
  | take q hne hlast =>
    refine ⟨hi.null, fun p hp => ?_, fun x hx => ?_, fun b u hb => ?_⟩
    · by_cases hpq : p = q
      · subst hpq
        simp only [Mem.own, update_self] at hp
        exact absurd rfl hp
      · simp only [Mem.own, update_of_ne hpq] at hp ⊢
        rw [update_of_ne (hlast.sole p hpq hp)]
        exact hi.slots p hp
    · simp only [Mem.own]
      rw [update_of_ne (hlast.held x hx)]
      exact hi.held x hx
    · by_cases hbq : b = addr (m.slots q)
      · rw [hbq]
        exact (hi.slots q hne).1
      · simp only [Mem.own, update_of_ne hbq] at hb
        exact hi.owned b u hb
  | dup q => exact ⟨hi.null, fun p hp => hi.clear q hp, hi.held, hi.owned⟩
  | hold q ht hne =>
    refine ⟨hi.null, hi.slots, fun w hw => ?_, hi.owned⟩
    injection hw with hw
    rw [← hw]
    exact hi.slots q hne
  | copy w dst ht hh =>
    refine ⟨hi.null, fun p hp => ?_, fun x hx => ?_, hi.owned⟩
    · dsimp only at hp ⊢
      by_cases hpq : p = dst
      · rw [hpq, update_self]
        exact hi.held w hh
      · rw [update_of_ne hpq] at hp ⊢
        exact hi.slots p hp
    · cases hx
  | clear q cursor ht =>
    refine ⟨hi.null, fun p hp => hi.clear q hp, fun x hx => ?_, hi.owned⟩
    cases hx

/-- Another thread leaves an entry alone that it does not have to itself and that is not
in the slot it takes. -/
theorem EntryMove.kept (h : EntryMove u m m') {a : Word} (he : m.entries a ≠ none)
    (hu : m.owner a ≠ some u) (htake : ∀ q, m.slots q ≠ 0 → m.Last q → a ≠ addr (m.slots q)) :
    m'.entries a = m.entries a ∧ m'.owner a = m.owner a := by
  cases h with
  | keep hs he ho hops hh => exact ⟨by rw [he], by rw [ho]⟩
  | allocate kv b h0 hnew =>
    have hab : a ≠ b := fun h => he (h ▸ hnew)
    exact ⟨update_of_ne hab .., update_of_ne hab ..⟩
  | release b h =>
    have hab : a ≠ b := fun hab => hu (hab ▸ h)
    exact ⟨update_of_ne hab .., update_of_ne hab ..⟩
  | put q w hw ho =>
    refine ⟨rfl, ?_⟩
    by_cases hab : a = addr w
    · subst hab
      refine (update_self ..).trans (Option.eq_none_iff_forall_ne_some.mpr fun x hx => ?_).symm
      exact hu (ho x hx ▸ hx)
    · exact update_of_ne hab ..
  | take q hne hlast => exact ⟨rfl, update_of_ne (htake q hne hlast) ..⟩
  | _ => exact ⟨rfl, rfl⟩

/-- Nobody else touches what a thread has to itself. -/
theorem EntryMove.owner (h : EntryMove u m m') (hi : Pointed m) (hu : u ≠ t) {a : Word}
    (ha : m.owner a = some t) : m'.entries a = m.entries a ∧ m'.owner a = some t := by
  rw [← ha]
  refine h.kept (hi.owned a t ha) ?_ fun q hq _ heq => ?_
  · rw [ha]
    exact fun h => hu (Option.some.inj h).symm
  · rw [heq, (hi.slots q hq).2] at ha
    cases ha

variable {op : Op K T} {kv : Word} {item : K × T} {pub : Bool}

theorem EntryMove.ops_kept (h : EntryMove u m m') (hu : u ≠ t) (hop : (t, op) ∈ m.ops) :
    (t, op) ∈ m'.ops := by
  cases h with
  | keep hs he ho hops hh => rw [hops]; exact hop
  | enter op' calls => exact .tail _ hop
  | leave => exact List.mem_filter.mpr ⟨hop, by simpa using Ne.symm hu⟩
  | _ => exact hop

/-- The entry of an operation that runs is left to it, also when it is in slots. -/
theorem Mine.entryMove (h : Mine t op kv item pub m) (hc : op.created = some (item, kv))
    (hi : Pointed m) (hu : u ≠ t) (hm : EntryMove u m m') : Mine t op kv item pub m' := by
  have hrun := hm.ops_kept hu h.running
  cases pub with
  | false =>
    obtain ⟨he, ho⟩ := hm.owner hi hu h.owner
    exact ⟨hrun, he.trans h.entry, ho⟩
  | true =>
    have howner : m.owner kv = none := h.owner
    obtain ⟨he, ho⟩ := hm.kept (by rw [h.entry]; exact nofun) (by rw [howner]; exact nofun)
      fun q _ hlast => hlast.created _ h.running _ hc
    exact ⟨hrun, he.trans h.entry, ho.trans howner⟩

end Moves

/-! ## Code that leaves pointers and entries alone -/

/-- An access that is no deletion and changes neither slots nor entries. -/
structure Aside (l : Site) (m m' : Mem K T) : Prop where
  site : ∀ a, l ≠ .entryDelete a
  slots : m'.slots = m.slots
  entries : m'.entries = m.entries
  owner : m'.owner = m.owner
  ops : m'.ops = m.ops
  hold : m'.hold = m.hold

theorem Aside.move {l : Site} {m m' : Mem K T} (h : Aside l m m') (t : Nat) : EntryMove t m m' :=
  .keep h.slots h.entries h.owner h.ops (.inl h.hold)

section Aside

variable {H : Table K}

theorem aside_of_loads {α : Type} {p : Code K T α} (h : p.Within Loads) : p.Within Aside := by
  refine h.mono fun l m m' hl => ?_
  obtain ⟨hload, rfl⟩ := hl
  refine ⟨fun a ha => ?_, rfl, rfl, rfl, rfl, rfl⟩
  rw [ha] at hload
  cases hload

theorem load_aside {α : Type} {l : Site} {f : Mem K T → α} (hl : l.isLoad = true) :
    (Prog.read l f).Within Aside :=
  aside_of_loads (load_loads hl)

theorem casMeta_aside {ptr : Nat} {mt : Meta} {note : Mem K T → Mem K T}
    (hnote : ∀ m, Aside .metaCas m (note m)) : (casMeta ptr mt note).Within Aside := by
  intro m
  refine ⟨?_, trivial⟩
  dsimp only
  split
  · have h := hnote { m with
      metaPtr := m.metaPtr + 1
      metas := update m.metas (m.metaPtr + 1) mt }
    exact ⟨nofun, h.slots, h.entries, h.owner, h.ops, h.hold⟩
  · exact ⟨nofun, rfl, rfl, rfl, rfl, rfl⟩

theorem publishLoop_aside {cap : Nat} : ∀ n ptr mt,
    (publishLoop H cap n ptr mt : Code K T Unit).Within Aside := by
  intro n
  induction n with
  | zero => exact fun _ _ => trivial
  | succ n ih =>
    intro ptr mt
    refine .bind ?_ fun up => ?_
    · split
      · trivial
      · exact load_aside rfl
    · split
      · trivial
      · refine .bind (casMeta_aside fun m => ⟨nofun, rfl, rfl, rfl, rfl, rfl⟩) fun done => ?_
        split
        · trivial
        · refine .bind (load_aside rfl) fun m => ?_
          split
          · trivial
          · exact ih _ _

theorem expand_aside {ptr : Nat} {mt : Meta} : (expand H ptr mt : Code K T Unit).Within Aside := by
  refine .bind (load_aside rfl) fun up => ?_
  split
  · refine .bind (fun m => ⟨?_, trivial⟩) fun _ => publishLoop_aside _ _ _
    dsimp only
    split <;> exact ⟨nofun, rfl, rfl, rfl, rfl, rfl⟩
  · refine .bind (load_aside rfl) fun tmp => ?_
    split
    · exact publishLoop_aside _ _ _
    · trivial

theorem dropLoop_aside {bl : Nat} : ∀ n ptr mt,
    (dropLoop bl n ptr mt : Code K T Unit).Within Aside := by
  intro n
  induction n with
  | zero => exact fun _ _ => trivial
  | succ n ih =>
    intro ptr mt
    refine .bind (aside_of_loads (countLevels_loads _ _ _)) fun left =>
      .bind (load_aside rfl) fun up => ?_
    split
    · trivial
    · refine .bind (casMeta_aside fun m => ⟨nofun, rfl, rfl, rfl, rfl, rfl⟩) fun done => ?_
      split
      · trivial
      · exact .bind (load_aside rfl) fun m => ih _ _

end Aside

/-! ## Deletions are checked -/

/-- Thread `t` deletes what it has to itself. -/
def deletesOwn (t : Nat) : Site → Mem K T → Prop
  | .entryDelete a, m => m.owner a = some t
  | _, _ => True

def deleteCtx (t : Nat) : Ctx Site (Mem K T) :=
  Ctx.pool Pointed EntryMove (fun _ _ => .keep rfl rfl rfl rfl (.inl rfl)) lastPointers.atStep t

/-- The code of thread `t` deletes only what it has to itself. -/
def Deletes {α : Type} (t : Nat) (Q : α → Mem K T → Prop) (p : Code K T α) (m : Mem K T) : Prop :=
  wpc (deleteCtx t) (deletesOwn t) Q p m

/-- What the accesses of the others keep. -/
def Lasting (t : Nat) (A : Mem K T → Prop) : Prop :=
  ∀ u m m', u ≠ t → Pointed m → EntryMove u m m' → A m → A m'

section Rules

variable {H : Table K} {t : Nat} {m m' s : Mem K T} {A : Mem K T → Prop} {α β : Type}

variable {l : Site}

theorem Aside.checked (h : Aside l m m') : deletesOwn t l m := by
  cases l with
  | entryDelete a => exact absurd rfl (h.site a)
  | _ => trivial

theorem Lasting.stable (hA : Lasting t A) : (deleteCtx t).Stable A :=
  fun _ _ => Others.kept fun hu hi _ hm => hA _ _ _ hu hi hm

theorem lasting_true : Lasting t fun _ : Mem K T => True := fun _ _ _ _ _ _ _ => trivial

theorem lasting_owner {a : Word} : Lasting t fun m : Mem K T => m.owner a = some t :=
  fun _ _ _ hu hi hm h => (hm.owner hi hu h).2

theorem Lasting.and {B : Mem K T → Prop} (hA : Lasting t A) (hB : Lasting t B) :
    Lasting t fun m => A m ∧ B m :=
  fun _ _ _ hu hi hm h => ⟨hA _ _ _ hu hi hm h.1, hB _ _ _ hu hi hm h.2⟩

variable {p : Code K T α}

theorem deletes_aside (hp : p.Within Aside) (hA : Lasting t A) (h0 : A s) :
    Deletes t (fun _ => A) p s :=
  wpc_within hA.stable
    (fun hi h => ⟨h.checked, (h.move t).inv hi, h.move t⟩)
    (fun hi h => hA (t + 1) _ _ (Nat.succ_ne_self t) hi (h.move _)) hp h0

theorem Deletes.mono {Q Q' : α → Mem K T → Prop} (h : Deletes t Q p s)
    (hQ : ∀ a m, Pointed m → Q a m → Q' a m) : Deletes t Q' p s :=
  wpc_mono hQ h

variable {k : α → Code K T β}

theorem Deletes.bind {Q : α → Mem K T → Prop} {Q' : β → Mem K T → Prop} (h : Deletes t Q p s)
    (hk : ∀ a m, Pointed m → Q a m → Deletes t Q' (k a) m) : Deletes t Q' (p >>= k) s :=
  wpc_bind (h.mono hk)

theorem Lasting.walks (hA : Lasting t A) :
    Walks fun _ (p : Code K T _) => ∀ s, A s → Deletes t (fun _ => A) p s where
  loads hp _ h0 := deletes_aside (aside_of_loads hp) hA h0
  bind hp hk s h0 := (hp s h0).bind fun a m _ h => hk a m h

theorem deletes_ret {Q : α → Mem K T → Prop} {a : α} (hA : Lasting t A) (h0 : A s)
    (h : ∀ m, A m → Q a m) : Deletes t Q (.ret a) s :=
  wpc_ret_of hA.stable h0 fun m _ => h m

theorem deletes_done {a : α} : Deletes t (fun _ _ => True) (.ret a : Code K T α) s :=
  deletes_ret lasting_true trivial fun _ _ => trivial

theorem deletes_step {Q : α → Mem K T → Prop} {u : Mem K T → Mem K T} {n : Mem K T → Code K T α}
    (hA : Lasting t A) (h0 : A s)
    (h : ∀ m, Pointed m → A m → lastPointers.atStep l m → deletesOwn t l m ∧ EntryMove t m (u m) ∧ Deletes t Q (n m) (u m)) :
    Deletes t Q (.step l u n) s := by
  refine wpc_step_of hA.stable h0 fun m hi ha hok => ?_
  obtain ⟨hc, hm, hn⟩ := h m hi ha hok
  exact ⟨hc, hm.inv hi, hm, hn⟩

variable {Q : β → Mem K T → Prop}

theorem deletes_rmw {u : Mem K T → Mem K T} {f : Mem K T → α} (hA : Lasting t A) (h0 : A s)
    (h : ∀ m, Pointed m → A m → lastPointers.atStep l m → deletesOwn t l m ∧ EntryMove t m (u m) ∧ Deletes t Q (k (f m)) (u m)) :
    Deletes t Q (rmw l u f >>= k) s :=
  deletes_step hA h0 h

theorem deletes_load {f : Mem K T → α} (hl : l.isLoad = true) (hA : Lasting t A) (h0 : A s)
    (h : ∀ m, Pointed m → A m → Deletes t Q (k (f m)) m) : Deletes t Q (Prog.read l f >>= k) s := by
  refine deletes_step hA h0 fun m hi ha _ => ⟨?_, .keep rfl rfl rfl rfl (.inl rfl), h m hi ha⟩
  cases l <;> trivial

theorem deletes_then (hp : p.Within Aside) (hA : Lasting t A) (h0 : A s)
    (h : ∀ a m, Pointed m → A m → Deletes t Q (k a) m) : Deletes t Q (p >>= k) s :=
  (deletes_aside hp hA h0).bind h

theorem deletes_loadEntry {a : Word} {k : K × T → Code K T β} (hA : Lasting t A) (h0 : A s)
    (h : ∀ kv m, Pointed m → A m → m.entries a = some kv → Deletes t Q (k kv) m) :
    Deletes t Q (loadEntry a >>= k) s := by
  refine deletes_step hA h0 fun m hi ha _ => ⟨trivial, .keep rfl rfl rfl rfl (.inl rfl), ?_⟩
  cases he : m.entries a with
  | none =>
    simp only [he]
    trivial
  | some kv =>
    simp only [he]
    exact h kv m hi ha he

theorem deletes_casSlot {q : Slot} {e d : Word} {note : Mem K T → Mem K T} {k : Bool → Code K T β}
    (hl : ∀ m : Mem K T, deletesOwn t l m) (hA : Lasting t A) (h0 : A s)
    (hfail : ∀ m, Pointed m → A m → Deletes t Q (k false) m)
    (hdone : ∀ m, Pointed m → A m → lastPointers.atStep l m → m.slots q = e → EntryMove t m (note { m with slots := update m.slots q d }) ∧ Deletes t Q (k true) (note { m with slots := update m.slots q d })) :
    Deletes t Q (casSlot l q e d note >>= k) s := by
  refine deletes_rmw hA h0 fun m hi ha hok => ⟨hl m, ?_⟩
  by_cases hq : m.slots q = e
  · simp only [if_pos hq, beq_iff_eq.mpr hq]
    exact hdone m hi ha hok hq
  · simp only [if_neg hq, beq_eq_false_iff_ne.mpr hq]
    exact ⟨.keep rfl rfl rfl rfl (.inl rfl), hfail m hi ha⟩

theorem deletes_delete {a : Word} {k : Unit → Code K T β} (hA : Lasting t A) (h0 : A s)
    (hown : ∀ m, A m → m.owner a = some t)
    (h : ∀ m, Pointed m → A m → Deletes t Q (k ()) (m.release a)) :
    Deletes t Q (deleteEntry a >>= k) s :=
  deletes_rmw hA h0 fun m hi ha _ => ⟨hown m ha, .release a (hown m ha), h m hi ha⟩

end Rules

/-! ### `find` -/

section Find

variable [DecidableEq K] {H : Table K} {t : Nat} {s : Mem K T} {op : Op K T} {kv : Word}
  {item : K × T} {pub : Bool}

omit [DecidableEq K] in
theorem lasting_mine (hc : op.created = some (item, kv)) :
    Lasting t (Mine t op kv item pub : Mem K T → Prop) :=
  fun _ _ _ hu hi hm h => h.entryMove hc hi hu hm

/-- `del_dup` deletes an entry of another operation only. -/
theorem delDup_deletes (hc : op.created = some (item, kv)) {p1 p2 : Slot} {e1 e2 : Word}
    (h0 : Mine t op kv item pub s) :
    Deletes t (fun _ => Mine t op kv item pub) (delDup t p1 p2 e1 e2 : Code K T Unit) s := by
  have hA : Lasting t (Mine t op kv item pub : Mem K T → Prop) := lasting_mine hc
  have hret : ∀ {m : Mem K T}, Mine t op kv item pub m →
      Deletes t (fun _ => Mine t op kv item pub) (.ret () : Code K T Unit) m :=
    fun h => deletes_ret hA h fun _ h => h
  refine deletes_load rfl hA h0 fun m _ h0 => ?_
  split
  · exact hret h0
  · refine deletes_load rfl hA h0 fun m _ h0 => ?_
    split
    · exact hret h0
    · split
      · split
        · refine deletes_casSlot (fun _ => trivial) hA h0 (fun m _ h0 => hret h0) ?_
          intro m _ h0 _ _
          exact ⟨.dup p2, hret ⟨h0.running, h0.entry, h0.owner⟩⟩
        · refine deletes_loadEntry hA h0 fun kv1 m _ h0 _ => ?_
          refine deletes_loadEntry hA h0 fun kv2 m hi h0 he2 => ?_
          have hne : e2 ≠ 0 := by
            intro h
            rw [h, addr_zero, hi.null] at he2
            cases he2
          split
          · refine deletes_casSlot (fun _ => trivial) hA h0 (fun m _ h0 => hret h0) ?_
            intro m _ h0 hok hq
            have hlast : m.Last p2 := hok hq
            have hkv : kv ≠ addr e2 := by
              rw [← hq]
              exact hlast.created _ h0.running _ hc
            have htake : EntryMove t m (Mem.own t (addr e2)
                { m with slots := update m.slots p2 0 }) := by
              rw [← hq]
              exact .take p2 (hq ▸ hne) hlast
            refine ⟨htake, ?_⟩
            -- the entry taken is not the one of the operation itself
            have hB : Lasting t fun m : Mem K T =>
                m.owner (addr e2) = some t ∧ Mine t op kv item pub m := lasting_owner.and hA
            refine deletes_delete hB ⟨update_self .., h0.running, h0.entry, ?_⟩
              (fun _ h => h.1) fun m _ h => hret ⟨h.2.running, ?_, ?_⟩
            · exact (update_of_ne hkv ..).trans h0.owner
            · exact (update_of_ne hkv ..).trans h.2.entry
            · exact (update_of_ne hkv ..).trans h.2.owner
          · exact hret h0
      · exact hret h0

theorem findLoop_deletes (hc : op.created = some (item, kv)) {query : Query K} :
    ∀ n ptr mt last s, Mine t op kv item pub s → Deletes t (fun _ => Mine t op kv item pub)
      (findLoop H t query n ptr mt last : Code K T Find) s :=
  (lasting_mine hc).walks.findLoop fun _ _ _ _ _ => delDup_deletes hc

end Find

/-! ### The operations -/

section Operations

variable [DecidableEq K] {H : Table K} {t : Nat} {s : Mem K T} {op : Op K T} {key : K} {kv : Word}
  {item : K × T}

omit [DecidableEq K] in
theorem Mine.entryPut {pub : Bool} {m : Mem K T} (h : Mine t op kv item pub m) (haddr : addr kv = kv)
    (q : Slot) (par : BitVec 16) : EntryMove t m
      (Mem.disown kv { m with slots := update m.slots q (setPartial kv par) }) := by
  have hw : addr (setPartial kv par) = kv := addr_setPartial haddr par
  have hput := EntryMove.put q (setPartial kv par)
    (by rw [hw, h.entry]; exact nofun) (by rw [hw]; exact fun u hu => h.owned hu)
  rw [hw] at hput
  exact hput

theorem insertLoop_deletes (hc : op.created = some (item, kv)) (haddr : addr kv = kv) (par : BitVec 16) :
    ∀ n check expanded s, Mine t op kv item (!check) s → Deletes t (fun _ _ => True)
      (insertLoop H t key kv (setPartial kv par) n check expanded : Code K T (Ret K T)) s := by
  intro n
  induction n with
  | zero => exact fun _ _ _ _ => trivial
  | succ n ih =>
    intro check expanded s h0
    have hA : Lasting t (Mine t op kv item (!check) : Mem K T → Prop) := lasting_mine hc
    refine deletes_load rfl hA h0 fun m _ h0 => ?_
    -- `find_empty_slot` is called when the entry is in a slot already, and does not find
    have hfind : Deletes t (fun r m => (r.1.result.isFound = true → check = true) ∧
        Mine t op kv item (!check) m)
        (if check = true then do
            let f ← find H t ⟨key, false, false⟩ m.metaPtr m.cur
            pure (f, m.metaPtr, m.cur)
          else findEmptySlot H key m.metaPtr m.cur : Code K T (Find × Nat × Meta)) m := by
      split
      · next hcheck =>
        exact (findLoop_deletes hc _ _ _ _ _ h0).bind fun f m _ h0 =>
          deletes_ret hA h0 fun m h0 => ⟨fun _ => hcheck, h0⟩
      · next hcheck =>
        have hload : Deletes t (fun _ => Mine t op kv item (!check))
            (findEmptySlot H key m.metaPtr m.cur) m :=
          deletes_aside (aside_of_loads (findEmptySlotLoop_vacancy _ _ _).within) hA h0
        refine Deletes.mono (wpc_meets (findEmptySlotLoop_vacancy _ _ _) hload)
          fun r m _ h => ⟨fun hf => ?_, h.2⟩
        rw [h.1.1] at hf
        cases hf
    refine hfind.bind fun r m _ h => ?_
    obtain ⟨hfound, h0⟩ := h
    dsimp only
    split
    · next hf =>
      have hown : ∀ m : Mem K T, Mine t op kv item (!check) m → m.owner kv = some t := by
        intro m h
        rw [hfound hf] at h
        exact h.owner
      exact deletes_delete hA h0 hown fun _ _ _ => deletes_done
    · split
      · split
        · trivial
        · next e _ =>
          refine deletes_casSlot (fun _ => trivial) hA h0 (fun m _ h0 => ih _ _ _ h0) ?_
          intro m _ h0 _ _
          refine ⟨h0.entryPut haddr e par, ?_⟩
          have hput : Mine t op kv item (!false) (Mem.disown kv
            { m with slots := update m.slots e (setPartial kv par) }) := h0.put ..
          rw [if_pos rfl]
          split
          · refine deletes_load rfl (lasting_mine hc) hput fun m _ hput => ?_
            split
            · exact ih false _ _ hput
            · exact deletes_done
          · exact deletes_done
      · exact deletes_then expand_aside hA h0 fun _ m _ h0 => ih _ _ _ h0

omit [DecidableEq K] in
/-- `new value_type(..)` gives the operation an entry of its own. -/
theorem newEntry_deletes {Q : Ret K T → Mem K T → Prop} {k : Unit → Code K T (Ret K T)}
    (hrun : (t, op) ∈ s.ops)
    (h : ∀ m, Mine t op kv item false m → addr kv = kv → Deletes t Q (k ()) m) :
    Deletes t Q (newEntry t kv item >>= k) s := by
  have hA : Lasting t fun m : Mem K T => (t, op) ∈ m.ops := fun _ _ _ hu _ hm h => hm.ops_kept hu h
  refine deletes_step hA hrun fun m _ hrun _ => ⟨trivial, ?_⟩
  by_cases hnew : kv ≠ 0 ∧ addr kv = kv ∧ m.entries kv = none
  · simp only [if_pos hnew]
    refine ⟨.allocate item kv hnew.1 hnew.2.2, h _ ⟨hrun, ?_, ?_⟩ hnew.2.1⟩
    · exact update_self ..
    · exact update_self ..
  · simp only [if_neg hnew]
    exact ⟨.keep rfl rfl rfl rfl (.inl rfl), trivial⟩

theorem updateLoop_deletes (hc : op.created = some (item, kv)) (haddr : addr kv = kv) (par : BitVec 16) :
    ∀ n ptr mt succ s, Mine t op kv item succ s → Deletes t (fun _ _ => True)
      (updateLoop H t key kv (setPartial kv par) n ptr mt succ : Code K T (Ret K T)) s := by
  intro n
  induction n with
  | zero => exact fun _ _ _ _ _ => trivial
  | succ n ih =>
    intro ptr mt succ s h0
    have hA : Lasting t (Mine t op kv item succ : Mem K T → Prop) := lasting_mine hc
    refine (findLoop_deletes hc _ _ _ _ _ h0).bind fun f m _ h0 => ?_
    split
    · split
      · exact deletes_done
      · split
        · trivial
        · next e _ =>
          refine deletes_casSlot (fun _ => trivial) hA h0 (fun m _ h0 => ih _ _ _ _ h0) ?_
          intro m _ h0 _ _
          refine ⟨h0.entryPut haddr e par, ?_⟩
          have hput : Mine t op kv item true (Mem.disown kv
            { m with slots := update m.slots e (setPartial kv par) }) := h0.put ..
          refine deletes_load rfl (lasting_mine hc) hput fun m _ hput => ?_
          refine deletes_then (aside_of_loads updateRedo_loads) (lasting_mine hc) hput
            fun redo m _ hput => ?_
          split
          · exact ih _ _ true _ hput
          · exact deletes_done
    · split
      · next hsucc =>
        have hown : ∀ m : Mem K T, Mine t op kv item succ m → m.owner kv = some t := by
          intro m h
          rw [hsucc] at h
          exact h.owner
        exact deletes_delete hA h0 hown fun _ _ _ => deletes_done
      · exact deletes_done

theorem eraseSlot_deletes {ptr i : Nat} {q : Slot} :
    Deletes t (fun _ _ => True) (eraseSlot H t key ptr i q : Code K T Bool) s := by
  refine deletes_load rfl lasting_true trivial fun m _ _ => ?_
  split
  · next hw =>
    refine deletes_loadEntry lasting_true trivial fun kv m _ _ _ => ?_
    split
    · refine deletes_casSlot (fun _ => trivial) lasting_true trivial
        (fun _ _ _ => deletes_done) ?_
      intro m' _ _ hok hq
      have hne : m'.slots q ≠ 0 := by
        intro h
        rw [← hq, h] at hw
        exact hw.2 addr_zero
      refine ⟨?_, ?_⟩
      · rw [← hq]
        exact .take q hne (hok hq)
      · refine deletes_delete lasting_owner (update_self ..) (fun _ h => h) fun _ _ _ => ?_
        refine deletes_load rfl lasting_true trivial fun _ _ _ => ?_
        split
        · exact deletes_done
        · split
          · exact deletes_then (aside_of_loads loadNeighbour_loads) lasting_true trivial
              fun _ _ _ _ => deletes_done
          · exact deletes_done
    · exact deletes_done
  · exact deletes_done

end Operations

/-! ### `resize` -/

section Resize

variable {H : Table K} {w : Word} {src dst : Slot}

/-- Only the rehasher changes what it has in its hand. -/
theorem lasting_held : Lasting 0 fun m : Mem K T => m.hold = .held w := by
  intro u m m' hu _ hm h
  cases hm with
  | keep hs he ho hops hh =>
    rcases hh with hh | ⟨h0, _⟩
    · exact hh.trans h
    · exact absurd h0 hu
  | hold q ht hne | copy w dst ht hh | clear q cursor ht => exact absurd ht hu
  | _ => exact h

theorem moveTo_deletes {s : Mem K T} (h0 : s.hold = .held w) :
    Deletes 0 (fun done m => done = false → m.hold = .held w) (moveTo w src dst) s := by
  have hfail : ∀ {m : Mem K T}, m.hold = .held w →
      Deletes 0 (fun done m => done = false → m.hold = .held w) (.ret false) m :=
    fun h => deletes_ret lasting_held h fun _ h _ => h
  refine deletes_load rfl lasting_held h0 fun m _ h0 => ?_
  split
  · refine deletes_casSlot (fun _ => trivial) lasting_held h0 (fun m _ h0 => hfail h0) ?_
    intro m _ h0 _ _
    refine ⟨.copy w dst rfl h0, ?_⟩
    refine deletes_step lasting_true trivial fun m _ _ _ => ⟨trivial, .clear src _ rfl, ?_⟩
    exact deletes_ret lasting_true trivial fun _ _ h => by cases h
  · exact hfail h0

theorem moveUp_deletes {tl b1 b2 : Nat} : ∀ n j (s : Mem K T), s.hold = .held w →
    Deletes 0 (fun _ _ => True) (moveUp w src tl b1 b2 n j) s := by
  intro n
  induction n with
  | zero => exact fun _ _ _ => deletes_done
  | succ n ih =>
    intro j s h0
    refine (moveTo_deletes h0).bind fun done m _ h => ?_
    split
    · exact deletes_done
    · next hd =>
      refine (moveTo_deletes (h (Bool.eq_false_iff.mpr hd))).bind fun done m _ h => ?_
      split
      · exact deletes_done
      · next hd => exact ih _ _ (h (Bool.eq_false_iff.mpr hd))

theorem rehashBucket_deletes {bl tl b : Nat} : ∀ n j (s : Mem K T),
    Deletes 0 (fun _ _ => True) (rehashBucket H bl tl b n j) s := by
  intro n
  induction n with
  | zero => exact fun _ _ => deletes_done
  | succ n ih =>
    intro j s
    refine deletes_rmw lasting_true trivial fun m _ _ _ => ⟨trivial, ?_⟩
    by_cases hw : addr (m.slots ⟨bl, b, j⟩) = 0
    · rw [if_pos hw, if_pos hw]
      exact ⟨.keep rfl rfl rfl rfl (.inl rfl), ih _ _⟩
    · rw [if_neg hw, if_neg hw]
      have hne : m.slots ⟨bl, b, j⟩ ≠ 0 := by
        intro h
        rw [h] at hw
        exact hw addr_zero
      refine ⟨.hold _ rfl hne, ?_⟩
      refine deletes_loadEntry lasting_held rfl fun kv m _ h0 _ => ?_
      refine (moveUp_deletes _ _ _ h0).bind fun done _ _ _ => ?_
      split
      · exact ih _ _
      · exact deletes_done

theorem rehashLoop_deletes {b : Nat} : ∀ n (s : Mem K T),
    Deletes 0 (fun _ _ => True) (rehashLoop H b n) s := by
  intro n
  induction n with
  | zero => exact fun _ => trivial
  | succ n ih =>
    intro s
    refine deletes_rmw lasting_true trivial fun m _ _ _ =>
      ⟨trivial, .keep rfl rfl rfl rfl (.inr ⟨rfl, rfl⟩), ?_⟩
    refine (rehashBucket_deletes _ _ _).bind fun done _ _ _ => ?_
    split
    · refine deletes_step lasting_true trivial fun m _ _ _ =>
        ⟨trivial, .keep rfl rfl rfl rfl (.inl rfl), ?_⟩
      split
      · exact deletes_aside (dropLoop_aside _ _ _) lasting_true trivial
      · exact deletes_done
    · exact deletes_then expand_aside lasting_true trivial fun _ _ _ _ => ih _

theorem resize_deletes {s : Mem K T} : Deletes 0 (fun _ _ => True) (resize H) s := by
  refine deletes_load rfl lasting_true trivial fun m _ _ => ?_
  refine deletes_then (aside_of_loads (countLevels_loads _ _ _)) lasting_true trivial fun _ _ _ _ => ?_
  split
  · exact deletes_done
  · exact deletes_load rfl lasting_true trivial fun _ _ _ => rehashLoop_deletes _ _

end Resize

/-! ## Runs -/

section Runs

variable [DecidableEq K] {H : Table K} {c : Config K T}

theorem code_deletes {t : Nat} {op : Op K T} {m m' : Mem K T} (he : enter t op m = some m') :
    Deletes t (fun _ _ => True) (code H t op) m' := by
  have hentered := entered he
  have hrun := hentered.running
  cases op with
  | insert key value kv =>
    exact newEntry_deletes hrun fun m hmine haddr =>
      insertLoop_deletes rfl haddr _ _ _ _ _ hmine
  | update key value kv =>
    refine newEntry_deletes hrun fun m hmine haddr => ?_
    exact deletes_load rfl (lasting_mine rfl) hmine fun m _ hmine =>
      updateLoop_deletes rfl haddr _ _ _ _ _ _ hmine
  | erase key =>
    exact deletes_load rfl lasting_true trivial fun m _ _ =>
      lasting_true.walks.eraseLoop (fun _ _ _ _ _ => eraseSlot_deletes) _ _ _ _ m trivial
  | search key => exact deletes_aside (aside_of_loads search_loads) lasting_true trivial
  | resize =>
    obtain rfl := hentered.rehasher.mp rfl
    exact resize_deletes.bind fun _ _ _ _ => deletes_done

def deleteOutline (H : Table K) : Outline (obj H) (lastPointers : Cond Site (Mem K T) (Op K T)) :=
  .ofMoves Pointed EntryMove (fun _ _ _ _ _ => True) (fun _ _ => .keep rfl rfl rfl rfl (.inl rfl))
    (by
      intro t op m m' hi _ he
      have hmove : EntryMove t m m' := by
        rw [(entered he).eq]
        exact .enter op _
      exact ⟨hmove.inv hi, hmove⟩)
    (by
      intro t op m m' _ _ he
      have hleave : ∀ m : Mem K T, EntryMove t m { m with ops := m.ops.filter fun x => x.1 != t } :=
        fun _ => .leave
      exact wp_mono (fun _ m hi _ => ⟨(hleave m).inv hi, hleave m, trivial⟩)
        (wp_of_wpc (code_deletes he)))

/-- Where the compare-exchanges before a deletion take the last pointer, an entry is there
when it is deleted, and no slot of the published levels points to it. -/
theorem deleted_not_pointed_to (h : (obj H).Reach lastPointers Init c) {t : Nat} {a : Word}
    (hnext : c.next t = some (.entryDelete a)) :
    c.mem.entries a ≠ none ∧ ∀ q : Slot, c.mem.cur.lastLevel ≤ q.level →
      q.level ≤ c.mem.cur.firstLevel → c.mem.slots q ≠ 0 → addr (c.mem.slots q) ≠ a := by
  have hinit : ∀ m : Mem K T, Init m → Pointed m := by
    intro m hm
    obtain ⟨before, rfl⟩ := hm
    exact ⟨rfl, fun q hq => absurd rfl hq, nofun, nofun⟩
  have hi : Pointed c.mem := ((deleteOutline H).sound hinit h).mem_inv
  have hcode : ∀ {t op m m'}, Pointed m → True → enter t op m = some m' →
      ∃ Q, wpc ((deleteOutline (T := T) H).ctx t) (deletesOwn t) Q (code H t op) m' :=
    fun _ _ he => ⟨_, code_deletes he⟩
  have hown : c.mem.owner a = some t := (deleteOutline H).checked_next hcode hinit h hnext trivial
  refine ⟨hi.owned a t hown, fun q _ _ hq heq => ?_⟩
  have hnone := (hi.slots q hq).2
  rw [heq, hown] at hnone
  cases hnone

/-- Nothing is taken out of a slot to be deleted. -/
def takesNothing : Cond Site (Mem K T) (Op K T) where
  atCall _ _ _ := True
  atStep
    | .eraseCas _ _, _ | .dupDeleteCas _ _, _ => False
    | _, _ => True

omit [DecidableEq K] in
theorem takesNothing_lastPointers (l : Site) (m : Mem K T) (h : takesNothing.atStep l m) :
    lastPointers.atStep l m := by
  cases l with
  | eraseCas q e => exact h.elim
  | dupDeleteCas q e => exact h.elim
  | _ => trivial

instance {K : Type} (t : Nat) (op : Op K T) (m : Mem K T) : Decidable (takesNothing.atCall t op m) :=
  .isTrue trivial

instance {K : Type} (l : Site) (m : Mem K T) : Decidable (takesNothing.atStep l m) :=
  match l with
  | .eraseCas _ _ | .dupDeleteCas _ _ => .isFalse id
  | .metaLoad | .metaCas | .upLoad _ | .upCas _ | .slotLoad _ | .insertCas _ | .updateCas _ _
  | .dupCas _ _ | .copyCas _ | .slotClear _ | .entryLoad _ | .entryNew _ | .entryDelete _
  | .expandBucket => .isTrue trivial

theorem secondInsert_run : ((obj smallTable).runUnder takesNothing
    (callFor 1 (oddInsert 0) 24 ++ callFor 2 (.insert (oddKey 0) 1 0x20) 14) (Cfg.init emptyTable)).any
    fun c => c.next 2 = some (.entryDelete 0x20) := by
  decide +kernel

/-- The second insert of a key is about to delete the entry it does not need. -/
theorem deleted_not_pointed_to_secondInsert : ∃ c : Config Word Nat,
    (obj smallTable).Reach lastPointers Init c ∧ c.next 2 = some (.entryDelete 0x20) ∧
      c.mem.entries 0x20 ≠ none ∧ ∀ q : Slot, c.mem.cur.lastLevel ≤ q.level →
        q.level ≤ c.mem.cur.firstLevel → c.mem.slots q ≠ 0 → addr (c.mem.slots q) ≠ 0x20 := by
  obtain ⟨c, hreach, hnext⟩ := emptyTable_reach.of_any secondInsert_run
  have hlast := hreach.mono (fun _ _ _ _ => trivial) takesNothing_lastPointers
  exact ⟨c, hlast, hnext, deleted_not_pointed_to hlast hnext⟩

/-- The rehasher has copied the word of a slot and not cleared the slot; an erase takes the
word from there and is about to delete the entry. -/
def copiedErase : List (Act (Op Word Nat)) := callFor 0 .resize 10 ++ callFor 1 (.erase (oddKey 8)) 4

theorem copiedErase_run : ((obj smallTable).execAll (oddInserts 0 17) emptyTable).any fun x =>
    ((obj smallTable).runUnder Cond.free copiedErase (Cfg.init x.2)).any fun d =>
      x.1[8]? = some { found := false } ∧ d.next 1 = some (.entryDelete 0x90) ∧
      d.mem.cur = ⟨2, 0, true⟩ ∧
      d.mem.slots ⟨2, 4, 0⟩ = setPartial 0x90 (smallTable.par (oddKey 8)) := by
  decide +kernel

/-- The copy is in a slot of the top level. -/
theorem deleted_pointed_to : ∃ c : Config Word Nat, (obj smallTable).Reach Cond.free Init c ∧
    c.next 1 = some (.entryDelete 0x90) ∧ ∃ q : Slot, c.mem.cur.lastLevel ≤ q.level ∧
      q.level ≤ c.mem.cur.firstLevel ∧ c.mem.slots q ≠ 0 ∧ addr (c.mem.slots q) = 0x90 := by
  obtain ⟨⟨rs, m⟩, hx, hrest⟩ := (Option.any_eq_true _ _).mp copiedErase_run
  obtain ⟨d, hd, hv⟩ := (Option.any_eq_true _ _).mp hrest
  obtain ⟨hr, hnext, hcur, hslot⟩ := of_decide_eq_true hv
  obtain ⟨c, hc, rfl, hidle, _⟩ := oddInserts_reach hx hr
  refine ⟨c.after d, hc.after hidle hd, (c.next_after d 1).trans hnext, ⟨2, 4, 0⟩, ?_, ?_, ?_, ?_⟩
  · rw [show (c.after d).mem.cur = _ from hcur]
    exact Nat.zero_le _
  · rw [show (c.after d).mem.cur = _ from hcur]
  · rw [show (c.after d).mem.slots _ = _ from hslot]
    decide
  · rw [show (c.after d).mem.slots _ = _ from hslot]
    exact addr_setPartial (by decide) _

end Runs

end ShmPcc.ClevelHash
