import ShmPcc.Proofs.HelpInvariant

/-!
# The proof outline of `HelpUpdate`

One outline serves two readings. Without a restriction on runs it gives the
invariant and the monotone replicas. Under `noLostHelp` it also gives that a
finished `help_update(A, _)` leaves every replica at `A` or past it, which is
what the comment in the source promises of "any return".

`noLostHelp` rules out one branch in one kind of state: `help_update` gives up
after a failed compare-exchange on a replica although the global pointer still
holds the value it helps, locked. The reader of that replica cleared its lock
bit in between, so the replica was neither what the helper read nor what it
wanted to write, and nobody has moved it on. The other calls the restriction
rules out pass a locked word as `old_val`.
-/

namespace ShmPcc.HelpUpdate

open LockedPointer Prog

def noLostHelp : Cond Site Mem Op where
  atCall _ op _ :=
    match op with
    | .casPtr oldVal _ => hasLock oldVal = false
    | .loadPtr => True
  atStep l m :=
    match l with
    | .helpReload i expected =>
      m.replicaPtrs i ≠ withLock expected → m.globalPtr ≠ withLock expected
    | _ => True

/-- The restriction of the strict reading, none otherwise. -/
def cond : Bool → Cond Site Mem Op
  | true => noLostHelp
  | false => Cond.free

def OutlineInv (N : Nat) (strict : Bool) (m : Mem) : Prop :=
  Inv N m ∧ (strict = true → Tight N m)

/-- A thread installs only values it was given. -/
def Guar (N t : Nat) (m m' : Mem) : Prop :=
  Evolve N m m' ∧ (m'.installed = m.installed ∨
    ∃ v, m'.installed = m.installed ++ [v] ∧ m'.issuer v = some t)

def Rely (N t : Nat) (m m' : Mem) : Prop :=
  Evolve N m m' ∧ ∀ v, m.issuer v = some t → v ∈ m'.installed → v ∈ m.installed

section

variable {N t : Nat} {strict : Bool} {m m' m'' : Mem}

theorem Rely.refl (m : Mem) : Rely N t m m :=
  ⟨.refl m, fun _ _ hv => hv⟩

theorem Guar.refl (m : Mem) : Guar N t m m :=
  ⟨.refl m, .inl rfl⟩

theorem Rely.trans (h : OutlineInv N strict m) (h' : OutlineInv N strict m')
    (h₁ : Rely N t m m') (h₂ : Rely N t m' m'') : Rely N t m m'' := by
  refine ⟨h₁.1.trans h.1 h'.1 h₂.1, ?_⟩
  intro v hv hmem
  exact h₁.2 v hv (h₂.2 v (h₁.1.issuer v t hv) hmem)

theorem Guar.rely {u : Nat} (htu : t ≠ u) (h : Guar N t m m') : Rely N u m m' := by
  refine ⟨h.1, ?_⟩
  intro v hv hmem
  rcases h.2 with hin | ⟨w, hin, hiss⟩
  · rwa [hin] at hmem
  · rw [hin] at hmem
    rcases List.mem_append.mp hmem with hmem | hmem
    · exact hmem
    · rw [← List.mem_singleton.mp hmem, h.1.issuer v u hv] at hiss
      exact absurd (Option.some.inj hiss).symm htu

/-- The guarantee of code that installs nothing. -/
def Quiet (N : Nat) (m m' : Mem) : Prop :=
  Evolve N m m' ∧ m'.installed = m.installed

theorem Quiet.refl (m : Mem) : Quiet N m m := ⟨.refl m, rfl⟩

theorem Quiet.guar (h : Quiet N m m') : Guar N t m m' :=
  ⟨h.1, .inl h.2⟩

theorem Quiet.rely (h : Quiet N m m') : Rely N t m m' :=
  ⟨h.1, fun _ _ hv => h.2 ▸ hv⟩

def ctx (N : Nat) (strict : Bool) (t : Nat) : Ctx Site Mem where
  inv := OutlineInv N strict
  rely := Rely N t
  guar := Guar N t
  ok := (cond strict).atStep
  rely_refl := .refl
  rely_trans h h' _ := Rely.trans h h'
  guar_refl := .refl

/-- The context of a helper. -/
def quiet (N : Nat) (strict : Bool) (t : Nat) : Ctx Site Mem :=
  (ctx N strict t).guarBy (Quiet N) .refl

/-- Code proved as a helper, inside an operation: the operation also learns how
far the memory has moved. -/
theorem wp_of_quiet {α : Type} {Q : α → Mem → Prop} {p : Prog Site Mem α}
    (hm : OutlineInv N strict m) (h : wp (quiet N strict t) Q p m) :
    wp (ctx N strict t) (fun a s => Q a s ∧ Rely N t m s) p m :=
  wp_of_guarBy (g := Quiet N) .refl (fun _ _ hg => hg.guar)
    (wp_moved .refl
      (fun (h : OutlineInv N strict _) h' _ => Rely.trans h h') (fun hr => hr)
      (fun hg => Quiet.rely hg) hm h)

/-! ## Helping -/

/-- What a finished `help_update(A, _)` leaves behind. -/
def Helped (N : Nat) (strict : Bool) (A : Ptr) (m : Mem) : Prop :=
  A ∈ m.installed ∧ (strict = true → Reached N m A ∧ m.globalPtr ≠ withLock A)

variable {A : Ptr}

theorem Helped.evolve (h : Inv N m) (he : Evolve N m m') (hh : Helped N strict A m) :
    Helped N strict A m' := by
  refine ⟨he.mem hh.1, fun hs => ?_⟩
  obtain ⟨hr, hg⟩ := hh.2 hs
  exact ⟨he.reached h hh.1 hr, fun hg' => hg (he.relock A hh.1 hg')⟩

/-- What a helper of `A` knows at replica `i`. -/
def Passed (A : Ptr) (i : Nat) (m : Mem) : Prop :=
  A ∈ m.installed ∧ ∀ j < i, m.rank A ≤ m.rank (m.val j)

theorem Passed.evolve {i : Nat} (h : Inv N m) (he : Evolve N m m') (hi : i ≤ N) (hp : Passed A i m) :
    Passed A i m' :=
  ⟨he.mem hp.1, fun j hj => he.reached_at h hp.1 (by omega) (hp.2 j hj)⟩

theorem Passed.succ {i : Nat} (hp : Passed A i m) (hi : m.rank A ≤ m.rank (m.val i)) :
    Passed A (i + 1) m := by
  refine ⟨hp.1, fun j hj => ?_⟩
  rcases Nat.lt_succ_iff_lt_or_eq.mp hj with hj | rfl
  · exact hp.2 j hj
  · exact hi

/-- A value that the global pointer no longer holds, or no longer holds locked,
was helped to the end. -/
theorem helped_of_ne (h : OutlineInv N strict m) (hA : A ∈ m.installed)
    (hg : m.globalPtr ≠ withLock A) : Helped N strict A m := by
  refine ⟨hA, fun hs => ⟨?_, hg⟩⟩
  by_cases hn : A = m.newest
  · refine h.1.reached_of_settled ?_ hA
    cases hl : hasLock m.globalPtr with
    | false => rfl
    | true =>
      rw [hn, Mem.newest, withLock_clearLock hl] at hg
      exact absurd rfl hg
  · exact (h.2 hs).past A hA hn

theorem wp_helped {b : Bool} (h : OutlineInv N strict m) (hh : Helped N strict A m) :
    wp (quiet N strict t) (fun (_ : Bool) s => Helped N strict A s)
      (ret b) m :=
  fun _ hr _ => hh.evolve h.1 hr.1

theorem globalLoad_ne_withLock {p : Ptr} (hp : fromLocked p = A ∧ hasLock p = false) :
    p ≠ withLock A := by
  intro he
  rw [he, hasLock_withLock] at hp
  cases hp.2

/-- The compare-exchange of a helper on replica `i`, with what it learned in
the two loads before it. -/
theorem helpCas_wp {localR : Ptr} {i : Nat} {k : Bool → Prog Site Mem Bool} {Q : Bool → Mem → Prop}
    (hm : OutlineInv N strict m) (hi : i < N) (hp : Passed A i m)
    (hl : clearLock localR ∈ m.installed) (hlt : m.rank (clearLock localR) < m.rank A)
    (hk : ∀ m', OutlineInv N strict m' → Passed A (i + 1) m' → wp (quiet N strict t) Q (k true) m')
    (hfail : ∀ m', OutlineInv N strict m' → A ∈ m'.installed → (strict = true → m'.globalPtr ≠ withLock A) → wp (quiet N strict t) Q (k false) m') :
    wp (quiet N strict t) Q
      (currentCas (.helpReload i A) i localR (withLock A) >>= k) m := by
  refine wp_rmw (k := fun done => (if done = true then pure true else do
    let cur ← Prog.read (.helpReload i A) fun m => m.replicaPtrs i
    pure (cur == withLock A)) >>= k) ?_
  intro s hr hs _
  have hp' := hp.evolve hm.1 hr.1 (by omega)
  by_cases hc : s.replicaPtrs i = localR
  · simp only [hc, if_true, beq_self_eq_true, pure_eq, ret_bind]
    have hlt' : s.rank (s.val i) < s.rank A := by
      rw [show s.val i = clearLock localR by rw [Mem.val, hc], hr.1.rank_eq hl,
        hr.1.rank_eq hp.1]
      exact hlt
    obtain ⟨h1, h2, h3⟩ := help_step hs.1 hp'.1 hi hlt' hp'.2
    refine ⟨⟨h1, fun hst => h3 (hs.2 hst)⟩, ⟨h2, rfl⟩, ?_⟩
    refine hk _ ⟨h1, fun hst => h3 (hs.2 hst)⟩ (Passed.succ ?_ ?_)
    · exact hp'.evolve hs.1 h2 (by omega)
    · refine Nat.le_of_eq (congrArg _ ?_)
      show A = clearLock (Function.update s.replicaPtrs i (withLock A) i)
      rw [Function.update_self, clearLock_withLock (hs.1.unlocked A hp'.1)]
  · simp only [hc, if_false, beq_iff_eq]
    refine ⟨hs, Quiet.refl s, ?_⟩
    refine wp_read (k := fun cur => ret (cur == withLock A) >>= k) ?_
    intro s₁ hr₁ hs₁ hok
    have hp₁ := hp'.evolve hs.1 hr₁.1 (by omega)
    cases hcur : (s₁.replicaPtrs i == withLock A) with
    | true =>
      refine hk s₁ hs₁ (hp₁.succ (Nat.le_of_eq (congrArg _ ?_)))
      rw [Mem.val, beq_iff_eq.mp hcur, clearLock_withLock (hs₁.1.unlocked A hp₁.1)]
    | false =>
      refine hfail s₁ hs₁ hp₁.1 (fun hst => ?_)
      subst hst
      exact hok (by simpa using hcur)

theorem helpLoop_wp : ∀ {n i : Nat} {m : Mem}, i + n = N → OutlineInv N strict m → Passed A i m →
    wp (quiet N strict t) (fun (_ : Bool) s => Helped N strict A s)
      (helpLoop A n i) m := by
  intro n
  induction n with
  | zero =>
    intro i m hN hm hp
    refine wp_rmw ?_
    intro s hr hs _
    have hp' := hp.evolve hm.1 hr.1 (by omega)
    have hreach : Reached N s A := fun j hj => hp'.2 j (by omega)
    by_cases hg : s.globalPtr = withLock A
    · simp only [hg, if_true]
      obtain ⟨h1, h2, h3⟩ := unlock_step hs.1 hg hp'.1 hreach
      have hs' : OutlineInv N strict { s with globalPtr := A } :=
        ⟨h1, fun hst => h3 (hs.2 hst)⟩
      refine ⟨hs', ⟨h2, rfl⟩, wp_helped hs' ?_⟩
      exact helped_of_ne hs' hp'.1 (unlocked_ne_withLock (hs.1.unlocked A hp'.1))
    · simp only [hg, if_false]
      exact ⟨hs, Quiet.refl s, wp_helped hs (helped_of_ne hs hp'.1 hg)⟩
  | succ n ih =>
    intro i m hN hm hp
    refine wp_read ?_
    intro s hr hs _
    have hp' := hp.evolve hm.1 hr.1 (by omega)
    split
    · next hset =>
      exact wp_helped hs (helped_of_ne hs hp'.1 (globalLoad_ne_withLock hset))
    · refine wp_read ?_
      intro s₁ hr₁ hs₁ _
      have hp₁ := hp'.evolve hs.1 hr₁.1 (by omega)
      have hheld := hs₁.1.held i (by omega)
      split
      · next hne =>
        refine wp_read ?_
        intro s₂ hr₂ hs₂ _
        have hp₂ := hp₁.evolve hs₁.1 hr₂.1 (by omega)
        split
        · next hg =>
          refine wp_helped hs₂ (helped_of_ne hs₂ hp₂.1 ?_)
          intro he
          rw [fromLocked_eq, he, clearLock_withLock (hs₂.1.unlocked A hp₂.1)] at hg
          exact hg rfl
        · next hg =>
          -- the global pointer holds `A` now, so whatever the replica held
          -- before, being another value, is older
          rw [fromLocked_eq, not_not] at hg
          rw [fromLocked_eq] at hne
          have hle := hs₂.1.rank_le_newest (hr₂.1.mem hheld)
          rw [Mem.newest, hg] at hle
          have hlt := Nat.lt_of_le_of_ne hle
            (fun he => hne (rank_inj (hr₂.1.mem hheld) he))
          refine helpCas_wp hs₂ (by omega) hp₂ (hr₂.1.mem hheld) hlt ?_ ?_
          · intro s₃ hs₃ hp₃
            exact ih (by omega) hs₃ hp₃
          · intro s₃ hs₃ hA hg₃
            refine wp_helped hs₃ ⟨hA, fun hst => ?_⟩
            exact (helped_of_ne hs₃ hA (hg₃ hst)).2 hst
      · next heq =>
        rw [fromLocked_eq, not_not] at heq
        refine ih (by omega) hs₁ (hp₁.succ ?_)
        rw [Mem.val, heq]

theorem helpUpdate_wp {i : Nat} (hm : OutlineInv N strict m) (hp : Passed A i m) :
    wp (quiet N strict t) (fun (_ : Bool) s => Helped N strict A s)
      (helpUpdate N A i) m := by
  unfold helpUpdate
  split
  · exact helpLoop_wp (by omega) hm hp
  · trivial

/-! ## The two operations -/

/-- `cas_ptr(old, new)` from memory `m₀`: success means that the update went
through, failure that `old` was not, or did not stay, the value of the global
pointer. -/
def CasPost (N : Nat) (strict : Bool) (old new : Ptr) (m₀ : Mem) (ok : Bool) (m₁ : Mem) : Prop :=
  (ok = true → Helped N strict new m₁) ∧
    (ok = false → strict = true → m₀.newest = old → m₁.newest ≠ old)

/-- `load_ptr(i)` from memory `m₀`. -/
def LoadPost (N : Nat) (strict : Bool) (i : Nat) (m₀ : Mem) (v : Ptr) (m₁ : Mem) : Prop :=
  i < N ∧ v ∈ m₁.installed ∧ m₁.rank (m₀.val i) ≤ m₁.rank v ∧
    (strict = true → Reached N m₁ v)

/-- The global pointer holds none of the values locked that it held before the
call. -/
def Unhindered (strict : Bool) (m₀ m : Mem) : Prop :=
  strict = true → ∀ v ∈ m₀.installed, m.globalPtr ≠ withLock v

theorem Unhindered.evolve {m₀ : Mem} (h₀ : Evolve N m₀ m) (he : Evolve N m m')
    (hu : Unhindered strict m₀ m) : Unhindered strict m₀ m' :=
  fun hs v hv hg => hu hs v hv (he.relock v (h₀.mem hv) hg)

theorem install_wp {old new : Ptr} {m₀ : Mem} (h₀ : OutlineInv N strict m₀)
    (hold : strict = true → hasLock old = false) (hnew : hasLock new = false)
    (hm : OutlineInv N strict m) (he : Evolve N m₀ m)
    (hiss : m.issuer new = some t) (hfresh : new ∉ m.installed)
    (hu : Unhindered strict m₀ m) :
    wp (ctx N strict t) (CasPost N strict old new m₀)
      (do
        let done ← casInstall old new
        if done then do
          let _ ← helpUpdate N new 0
          pure true
        else pure false) m := by
  refine wp_rmw ?_
  intro s hr hs _
  have hfresh' : new ∉ s.installed := fun hin => hfresh (hr.2 new hiss hin)
  have hiss' := hr.1.issuer new t hiss
  by_cases hg : s.globalPtr = old
  · simp only [hg, if_true, beq_self_eq_true]
    obtain ⟨h1, h2, h3⟩ := install_step hs.1 hg hnew hfresh' hiss'
    have hs' := And.intro h1 fun hst : strict = true => h3 (hold hst) (hs.2 hst)
    refine ⟨hs', ⟨h2, .inr ⟨new, rfl, hiss'⟩⟩, ?_⟩
    · refine wp_bind (wp_mono ?_
        (wp_of_quiet hs' (helpUpdate_wp hs' ⟨?_, fun j hj => ?_⟩)))
      · rintro _ s₁ hs₁ ⟨hh, _⟩
        refine wp_ret fun s₂ hr₂ _ => ⟨fun _ => hh.evolve hs₁.1 hr₂.1, ?_⟩
        intro hf
        cases hf
      · exact List.mem_append_right _ (List.mem_singleton_self _)
      · exact absurd hj (Nat.not_lt_zero j)
  · have hgb : (s.globalPtr == old) = false := beq_eq_false_iff_ne.mpr hg
    simp only [hg, if_false, hgb]
    refine ⟨hs, Guar.refl s, wp_ret fun s₁ hr₁ hs₁ => ⟨fun hf => (by cases hf), ?_⟩⟩
    intro _ hst hn
    have he' := he.trans h₀.1 hm.1 hr.1
    have hin : old ∈ m₀.installed := hn ▸ h₀.1.newest_mem
    refine hr₁.1.replaced hs.1 hs₁.1 (he'.mem hin) ?_
    intro hn'
    -- the pointer is `old` with or without the lock bit, and it is neither
    cases hl : hasLock s.globalPtr with
    | false => exact hg (by rw [← hn', Mem.newest, clearLock_of_unlocked hl])
    | true =>
      refine (hu.evolve he hr.1) hst old hin ?_
      rw [← hn', Mem.newest, withLock_clearLock hl]

theorem casPtr_wp {old new : Ptr} (hold : strict = true → hasLock old = false)
    (hnew : hasLock new = false) (hm : OutlineInv N strict m)
    (hiss : m.issuer new = some t) (hfresh : new ∉ m.installed) :
    wp (ctx N strict t) (CasPost N strict old new m) (casPtr N old new) m := by
  refine wp_read ?_
  intro s hr hs _
  have hiss' := hr.1.issuer new t hiss
  have hfresh' : new ∉ s.installed := fun hin => hfresh (hr.2 new hiss hin)
  by_cases hl : hasLock s.globalPtr = true
  · simp only [hl, if_true]
    have hp : Passed s.newest 0 s := ⟨hs.1.newest_mem, fun j hj => absurd hj (by omega)⟩
    refine wp_bind (wp_mono ?_ (wp_of_quiet hs (helpUpdate_wp hs hp)))
    rintro _ s₁ hs₁ ⟨hh, hr₁⟩
    refine install_wp hm hold hnew hs₁ (hr.1.trans hm.1 hs.1 hr₁.1)
      (hr₁.1.issuer new t hiss') (fun hin => hfresh' (hr₁.2 new hiss' hin)) ?_
    intro hst v hv hg
    have hg' := hr₁.1.relock v (hr.1.mem hv) hg
    refine (hh.2 hst).2 ?_
    rw [hg, hg', clearLock_withLock (hs.1.unlocked v (hr.1.mem hv))]
  · rw [if_neg hl]
    refine install_wp hm hold hnew hs hr.1 hiss' hfresh' ?_
    intro _ v hv hg
    rw [hg, hasLock_withLock] at hl
    exact hl rfl

/-- The reader's compare-exchange, once the value it loaded has reached every
replica. -/
theorem readerCas_wp {localR : Ptr} (hm : OutlineInv N strict m)
    (hA : clearLock localR ∈ m.installed)
    (hr : strict = true → Reached N m (clearLock localR)) :
    wp (quiet N strict t)
      (fun (_ : Bool) s => clearLock localR ∈ s.installed ∧
        (strict = true → Reached N s (clearLock localR)))
      (currentCas (.readerReload t) t localR (clearLock localR)) m := by
  have hstay : ∀ {s s' : Mem}, Inv N s → Evolve N s s' → clearLock localR ∈ s.installed ∧
      (strict = true → Reached N s (clearLock localR)) → clearLock localR ∈ s'.installed ∧
      (strict = true → Reached N s' (clearLock localR)) :=
    fun h he hp => ⟨he.mem hp.1, fun hst => he.reached h hp.1 (hp.2 hst)⟩
  refine wp_rmw ?_
  intro s hrs hs _
  have hp := hstay hm.1 hrs.1 ⟨hA, hr⟩
  by_cases hc : s.replicaPtrs t = localR
  · have hb : (s.replicaPtrs t == localR) = true := beq_iff_eq.mpr hc
    rw [if_pos hc, if_pos hb]
    subst hc
    obtain ⟨h1, h2, h3⟩ := clear_step hs.1
    refine ⟨⟨h1, fun hst => h3 (hp.2 hst) (hs.2 hst)⟩, ⟨h2, rfl⟩, ?_⟩
    exact wp_ret fun s₁ hr₁ _ => hstay h1 hr₁.1 (hstay hs.1 h2 hp)
  · have hb : ¬ (s.replicaPtrs t == localR) = true := by rwa [beq_iff_eq]
    rw [if_neg hc, if_neg hb]
    refine ⟨hs, Quiet.refl s, wp_read fun s₁ hr₁ hs₁ _ => ?_⟩
    exact wp_ret fun s₂ hr₂ _ => hstay hs₁.1 hr₂.1 (hstay hs.1 hr₁.1 hp)

theorem loadPtr_wp (hm : OutlineInv N strict m) :
    wp (ctx N strict t) (LoadPost N strict t m) (loadPtr N t) m := by
  unfold loadPtr
  split
  · next ht =>
    refine wp_read ?_
    intro s hr hs _
    have hheld := hs.1.held t ht
    have hpost : ∀ {s' : Mem}, Rely N t s s' → clearLock (s.replicaPtrs t) ∈ s'.installed →
        (strict = true → Reached N s' (clearLock (s.replicaPtrs t))) →
        LoadPost N strict t m (clearLock (s.replicaPtrs t)) s' := by
      intro s' hr' hin hreach
      refine ⟨ht, hin, ?_, hreach⟩
      have hfw := hr.1.forward t ht
      rw [← hr'.1.rank_eq (hr.1.mem (hm.1.held t ht)), ← hr'.1.rank_eq hheld] at hfw
      exact hfw
    split
    · next hl =>
      refine wp_ret fun s₁ hr₁ _ => ?_
      have hp := hpost hr₁ (hr₁.1.mem hheld) fun hst =>
        hr₁.1.reached hs.1 hheld ((hs.2 hst).open_ t ht hl)
      rwa [clearLock_of_unlocked hl] at hp
    · have hp : Passed (s.val t) (t + 1) s :=
        ⟨hheld, fun j hj => hs.1.sorted j t (by omega) ht⟩
      refine wp_bind (wp_mono ?_ (wp_of_quiet
        (Q := fun (_ : Bool) s₁ => s.val t ∈ s₁.installed ∧
          (strict = true → Reached N s₁ (s.val t))) hs ?_))
      · rintro _ s₁ hs₁ ⟨⟨hin, hreach⟩, hr₁⟩
        refine wp_bind (wp_mono ?_ (wp_of_quiet hs₁
          (readerCas_wp hs₁ hin hreach)))
        rintro _ s₂ hs₂ ⟨⟨hin₂, hreach₂⟩, hr₂⟩
        refine wp_ret fun s₃ hr₃ _ => ?_
        refine hpost ((hr₁.trans hs hs₁ hr₂).trans hs hs₂ hr₃) (hr₃.1.mem hin₂) ?_
        exact fun hst => hr₃.1.reached hs₂.1 hin₂ (hreach₂ hst)
      · split
        · exact wp_mono (fun _ _ _ hh => ⟨hh.1, fun hst => (hh.2 hst).1⟩)
            (helpUpdate_wp hs hp)
        · -- the last replica: everybody before it is at least as far
          refine wp_ret fun s₁ hr₁ _ => ⟨hr₁.1.mem hheld, fun _ => ?_⟩
          exact hr₁.1.reached hs.1 hheld fun j hj => hp.2 j (by omega)
  · trivial

end

end ShmPcc.HelpUpdate
