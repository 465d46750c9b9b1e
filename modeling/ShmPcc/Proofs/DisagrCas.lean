import ShmPcc.Ref.DisagrCas

/-!
# The lock of nt with USE_DISAGR_CAS, and the updates made under it

A spin loop takes the lock from the value its expected variable has, and after a failed
attempt that value is 1: the next attempt takes the lock from the thread that holds it.
Where that does not happen the lock is a lock (`mutual_exclusion`), what a thread loads
of the value inside is the value until it stores, and each call takes effect in one step:
the store of the value, the comparison that fails, or, of a `compare_exchange_strong`
that finds the lock taken, that very attempt. The calls in the order of those steps are
the sequential order. It is not the order of the returns, since such an attempt is made
while another call has taken effect and has not returned.
-/

namespace ShmPcc.DisagrCas

open Function

variable {T : Type} [DecidableEq T] [Add T] [Sub T] {s : Sys (Mem T) (Pc T)} {pc pc' : Pc T}
  {m m' : Mem T} {op : Op T} {t : Nat}

/-! ## Exclusion -/

/-- A call that loads the value, stores what it makes of it and returns what it loaded. -/
def Op.Fetches (op : Op T) : Prop := ∀ v, op.apply v = (.value v, op.combine v)

/-- What a thread inside knows of the value. -/
def Pc.Knows (m : Mem T) : Pc T → Prop
  | .loadOld op => op.Fetches
  | .loadAgain op oldValue => op.Fetches ∧ m.value = oldValue
  | .storeBack op oldValue current => op.Fetches ∧ m.value = oldValue ∧ current = oldValue
  | .exchange expected _ => m.value = expected
  | _ => True

structure Own (_ : Nat) (pc : Pc T) (m : Mem T) : Prop where
  locked : pc.inside = true → m.lock ≠ 0
  knows : pc.Knows m

def Apart (_ : Nat) (pc : Pc T) (_ : Nat) (pc' : Pc T) (_ : Mem T) : Prop :=
  ¬ (pc.inside = true ∧ pc'.inside = true)

theorem knows_locked : op.locked.Knows m := by
  cases op <;> first | trivial | exact fun _ => rfl

/-- What a step is to the other threads: it stays outside and touches nothing, it takes a
free lock, it stays inside, or it leaves. -/
inductive Effect (pc : Pc T) (m : Mem T) (pc' : Pc T) (m' : Mem T) : Prop where
  | out (hpc : pc'.inside = false) (hm : m' = m)
  | enter (hfree : m.lock = 0) (hm : m' = { m with lock := 1 })
  | stay (hpc : pc.inside = true) (hlock : m'.lock = m.lock)
  | leave (hpc : pc.inside = true) (hpc' : pc'.inside = false)

theorem run_own (h : run t pc m = some (pc', m')) (hown : Own t pc m) (htime : pc.timely m = true) :
    Own t pc' m' ∧ Effect pc m pc' m' := by
  obtain ⟨hlocked, hknows⟩ := hown
  cases pc <;> simp only [run, Pc.timely, reduceCtorEq] at h htime
  case spin op expected =>
    split at h
    · next heq =>
      cases h
      have hfree : m.lock = 0 := by
        rcases Bool.or_eq_true_iff.mp htime with h0 | h0
        · rw [heq, eq_of_beq h0]
        · exact eq_of_beq h0
      exact ⟨⟨fun _ => by simp, knows_locked⟩, .enter hfree rfl⟩
    · cases h
      exact ⟨⟨nofun, trivial⟩, .out rfl rfl⟩
  case storeValue newValue =>
    cases h
    exact ⟨⟨hlocked, trivial⟩, .stay rfl rfl⟩
  case loadOld op =>
    cases h
    exact ⟨⟨hlocked, hknows, rfl⟩, .stay rfl rfl⟩
  case loadAgain op oldValue =>
    cases h
    exact ⟨⟨hlocked, hknows.1, hknows.2, hknows.2⟩, .stay rfl rfl⟩
  case storeBack op oldValue current =>
    cases h
    exact ⟨⟨hlocked, trivial⟩, .stay rfl rfl⟩
  case attempt expected desired =>
    split at h
    · next hfree =>
      cases h
      exact ⟨⟨fun _ => by simp, trivial⟩, .enter hfree rfl⟩
    · cases h
      exact ⟨⟨nofun, trivial⟩, .out rfl rfl⟩
  case compare expected desired =>
    split at h
    · next heq =>
      cases h
      exact ⟨⟨hlocked, heq⟩, .stay rfl rfl⟩
    · cases h
      exact ⟨⟨hlocked, trivial⟩, .stay rfl rfl⟩
  case exchange expected desired =>
    cases h
    exact ⟨⟨hlocked, trivial⟩, .stay rfl rfl⟩
  case release op ret =>
    cases h
    exact ⟨⟨nofun, trivial⟩, .leave rfl rfl⟩

theorem Pc.Knows.outside (h : pc.inside = false) : pc.Knows m := by
  cases pc <;> trivial

theorem Effect.others {pc₁ : Pc T} {w : Nat} (h : Effect pc m pc' m') (hown : Own w pc₁ m)
    (hapart : Apart t pc w pc₁ m) : Own w pc₁ m' ∧ Apart t pc' w pc₁ m' := by
  have hout : pc.inside = true → pc₁.inside = false := by
    intro hin
    simpa [Apart, hin] using hapart
  have hown' : pc₁.inside = false → Own w pc₁ m' := fun hfalse =>
    ⟨fun h => absurd (hfalse.symm.trans h) nofun, .outside hfalse⟩
  cases h with
  | out hpc hm =>
    subst hm
    exact ⟨hown, by simp [Apart, hpc]⟩
  | enter hfree hm =>
    have hfalse : pc₁.inside = false := by
      rw [← Bool.not_eq_true]
      exact fun hin => hown.locked hin hfree
    exact ⟨hown' hfalse, by simp [Apart, hfalse]⟩
  | stay hpc hlock => exact ⟨hown' (hout hpc), by simp [Apart, hout hpc]⟩
  | leave hpc hpc' => exact ⟨hown' (hout hpc), by simp [Apart, hpc']⟩

def initial (v : T) (s : Sys (Mem T) (Pc T)) : Prop := s.mem = ⟨0, v⟩ ∧ ∀ t, s.loc t = .idle

omit [DecidableEq T] [Add T] [Sub T] in
theorem call_eq (h : call t op pc m = some (pc', m')) :
    pc = .idle ∧ m' = m ∧ (pc' = .spin op 0 ∨ ∃ expected desired, pc' = .attempt expected desired) := by
  unfold call at h
  split at h <;> cases h
  · exact ⟨rfl, rfl, .inr ⟨_, _, rfl⟩⟩
  · exact ⟨rfl, rfl, .inl rfl⟩

theorem paired_of_reach {v : T} (h : machine.Reach timely (initial v) s) :
    Machine.Paired Own Apart s := by
  refine h.paired_symm ?_ ?_ ?_
  · intro pc pc' hapart hboth
    exact hapart hboth.symm
  · intro s ⟨hmem, hidle⟩
    refine ⟨fun t => ?_, fun t w _ => ?_⟩
    · rw [hidle t]
      exact ⟨nofun, trivial⟩
    · rw [hidle t]
      exact fun h => absurd h.1 nofun
  · intro s a pc m ⟨hown, hapart⟩ htime hact
    have hstep : Own a.thread pc m ∧ Effect (s.loc a.thread) s.mem pc m := by
      cases a with
      | call t op =>
        obtain ⟨-, rfl, hpc⟩ := call_eq (t := t) hact
        rcases hpc with rfl | ⟨expected, desired, rfl⟩
        · exact ⟨⟨nofun, trivial⟩, .out rfl rfl⟩
        · exact ⟨⟨nofun, trivial⟩, .out rfl rfl⟩
      | run t => exact run_own (t := t) hact (hown t) (htime t rfl)
    refine ⟨hstep.1, fun w hw => ?_⟩
    exact hstep.2.others (t := a.thread) (hown w) (hapart a.thread w (Ne.symm hw))

/-! ## The sequential order -/

section Order

variable {v : T} {calls order : List (Call T)} {c : Call T}

/-- The call that has taken effect and has not returned. -/
def Pc.pending : Pc T → Option (Call T)
  | .release op ret => some ⟨op, ret⟩
  | _ => none

/-- What a step is to the calls: nothing, the step in which a call takes effect, its
return, or both at once. -/
inductive Takes (pc : Pc T) (m : Mem T) (pc' : Pc T) (m' : Mem T) : Prop where
  | nothing (hpc : pc.pending = none) (hpc' : pc'.pending = none) (hret : returns pc pc' = none)
      (hm : m'.value = m.value)
  | effect (c : Call T) (hpc : pc.pending = none) (hin : pc.inside = true)
      (hpc' : pc'.pending = some c) (hret : returns pc pc' = none)
      (happly : c.op.apply m.value = (c.ret, m'.value))
  | return (c : Call T) (hpc : pc.pending = some c) (hpc' : pc'.pending = none)
      (hret : returns pc pc' = some c) (hm : m'.value = m.value)
  | both (c : Call T) (hpc : pc.pending = none) (hpc' : pc'.pending = none)
      (hret : returns pc pc' = some c) (happly : c.op.apply m.value = (c.ret, m'.value))

omit [DecidableEq T] [Add T] [Sub T] in
theorem pending_locked : op.locked.pending = none := by
  cases op <;> rfl

theorem run_takes (h : run t pc m = some (pc', m')) (hown : Own t pc m)
    (htime : pc.timely m = true) : Takes pc m pc' m' := by
  obtain ⟨-, hknows⟩ := hown
  cases pc <;> simp only [run, Pc.timely, reduceCtorEq] at h htime
  case spin op expected =>
    split at h <;> cases h
    · exact .nothing rfl pending_locked rfl rfl
    · exact .nothing rfl rfl rfl rfl
  case storeValue newValue =>
    cases h
    exact .effect ⟨.store newValue, .done⟩ rfl rfl rfl rfl rfl
  case loadOld op =>
    cases h
    exact .nothing rfl rfl rfl rfl
  case loadAgain op oldValue =>
    cases h
    exact .nothing rfl rfl rfl rfl
  case storeBack op oldValue current =>
    cases h
    obtain ⟨hfetch, hvalue, rfl⟩ := hknows
    refine .effect ⟨op, .value current⟩ rfl rfl rfl rfl ?_
    rw [hvalue]
    exact hfetch current
  case attempt expected desired =>
    split at h
    · cases h
      exact .nothing rfl rfl rfl rfl
    · next htaken =>
      cases h
      have hne : m.value ≠ expected := by
        simpa [htaken] using htime
      refine .both ⟨.compareExchangeStrong expected desired, .flag false⟩ rfl rfl rfl ?_
      exact if_neg hne
  case compare expected desired =>
    split at h
    · cases h
      exact .nothing rfl rfl rfl rfl
    · next hne =>
      cases h
      refine .effect ⟨.compareExchangeStrong expected desired, .flag false⟩ rfl rfl rfl rfl ?_
      exact if_neg hne
  case exchange expected desired =>
    cases h
    refine .effect ⟨.compareExchangeStrong expected desired, .flag true⟩ rfl rfl rfl rfl ?_
    exact if_pos hknows
  case release op ret =>
    cases h
    exact .return ⟨op, ret⟩ rfl rfl rfl rfl

theorem replay_concat (h : replay v order = some m.value)
    (happly : c.op.apply m.value = (c.ret, m'.value)) :
    replay v (order ++ [c]) = some m'.value := by
  induction order generalizing v with
  | nil =>
    cases h
    simp [replay, happly]
  | cons d order ih =>
    rw [replay] at h
    split at h
    · next hret =>
      rw [List.cons_append, replay, if_pos hret]
      exact ih h
    · cases h

/-- The calls that have taken effect, in that order: the completed ones, and the one that
has not returned. -/
def Ordered (v : T) (s : Sys (Mem T) (Pc T)) (calls : List (Call T)) : Prop :=
  ∃ order, replay v order = some s.mem.value ∧
    (∀ t c, (s.loc t).pending = some c → order.Perm (c :: calls)) ∧
    ((∀ t, (s.loc t).pending = none) → order.Perm calls)

omit [DecidableEq T] [Add T] [Sub T] in
theorem inside_of_pending (h : pc.pending = some c) : pc.inside = true := by
  cases pc <;> first | rfl | cases h

omit [DecidableEq T] [Add T] [Sub T] in
theorem none_pending (hapart : ∀ t w, t ≠ w → Apart t (s.loc t) w (s.loc w) s.mem)
    (hin : (s.loc t).inside = true) {w : Nat} (hw : w ≠ t) : (s.loc w).pending = none := by
  cases h : (s.loc w).pending with
  | none => rfl
  | some c => exact absurd ⟨inside_of_pending h, hin⟩ (hapart w t hw)

theorem ordered_step (hpair : Machine.Paired Own Apart s) (h : Takes (s.loc t) s.mem pc m)
    (hord : Ordered v s calls) : Ordered v ⟨m, update s.loc t pc⟩
      (calls ++ (returns (s.loc t) pc).toList) := by
  obtain ⟨order, hreplay, hsome, hnone⟩ := hord
  have hself : update s.loc t pc t = pc := update_self ..
  have hother : ∀ w, w ≠ t → update s.loc t pc w = s.loc w :=
    fun w hw => update_of_ne hw ..
  -- where the thread has no pending call after the step, the pending calls are old ones
  have hold : pc.pending = none → ∀ w c, (update s.loc t pc w).pending = some c →
      w ≠ t ∧ (s.loc w).pending = some c := by
    intro hpc w c hc
    have hw : w ≠ t := by
      intro heq
      rw [heq, hself, hpc] at hc
      cases hc
    rw [hother w hw] at hc
    exact ⟨hw, hc⟩
  have hback : (s.loc t).pending = none → (∀ w, (update s.loc t pc w).pending = none) →
      ∀ w, (s.loc w).pending = none := by
    intro hpc hall w
    by_cases hw : w = t
    · rw [hw]
      exact hpc
    · rw [← hother w hw]
      exact hall w
  cases h with
  | nothing hpc hpc' hret hm =>
    rw [hret, Option.toList_none, List.append_nil]
    refine ⟨order, by rw [hm]; exact hreplay, ?_, fun hall => hnone (hback hpc hall)⟩
    intro w c hc
    exact hsome w c (hold hpc' w c hc).2
  | effect c hpc hin hpc' hret happly =>
    rw [hret, Option.toList_none, List.append_nil]
    -- nobody else is inside, so the order so far is that of the completed calls
    have hothers : ∀ w, w ≠ t → (s.loc w).pending = none := fun w hw =>
      none_pending hpair.2 hin hw
    have hperm : order.Perm calls := by
      refine hnone fun w => ?_
      by_cases hw : w = t
      · rw [hw]
        exact hpc
      · exact hothers w hw
    refine ⟨order ++ [c], replay_concat hreplay happly, ?_, ?_⟩
    · intro w c' hc
      by_cases hw : w = t
      · dsimp only at hc
        rw [hw, hself, hpc'] at hc
        cases hc
        exact (List.perm_append_singleton c order).trans (hperm.cons c)
      · dsimp only at hc
        rw [hother w hw, hothers w hw] at hc
        cases hc
    · intro hall
      have := hall t
      dsimp only at this
      rw [hself, hpc'] at this
      cases this
  | «return» c hpc hpc' hret hm =>
    rw [hret, Option.toList_some]
    refine ⟨order, by rw [hm]; exact hreplay, ?_, ?_⟩
    · intro w c' hc
      obtain ⟨hw, hc⟩ := hold hpc' w c' hc
      rw [none_pending hpair.2 (inside_of_pending hpc) hw] at hc
      cases hc
    · intro _
      exact (hsome t c hpc).trans (List.perm_append_singleton c calls).symm
  | both c hpc hpc' hret happly =>
    rw [hret, Option.toList_some]
    refine ⟨order ++ [c], replay_concat hreplay happly, ?_, ?_⟩
    · intro w c' hc
      exact (hsome w c' (hold hpc' w c' hc).2).append_right [c]
    · intro hall
      exact (hnone (hback hpc hall)).append_right [c]

theorem ordered_of_reach {s : Sys (Mem T × List (Call T)) (Pc T)}
    (h : (machine.record log).Reach (fun s a => timely s.forget a) (fresh v) s) :
    Ordered v s.forget s.mem.2 := by
  have hinit : ∀ s : Sys (Mem T × List (Call T)) (Pc T), fresh v s →
      initial v s.forget ∧ Ordered v s.forget s.mem.2 := by
    intro s ⟨hmem, hidle⟩
    refine ⟨⟨congrArg Prod.fst hmem, hidle⟩, [], ?_, ?_, fun _ => ?_⟩
    · exact congrArg (fun x => some x.1.value) hmem.symm
    · intro t c hc
      rw [Sys.forget, hidle t] at hc
      cases hc
    · rw [hmem]
  refine h.recorded hinit ?_
  intro s a pc m calls hr htime hact hord
  have hpair := paired_of_reach hr
  refine ordered_step hpair ?_ hord
  cases a with
  | call t op =>
    obtain ⟨hidle, rfl, hpc⟩ := call_eq (t := t) hact
    rw [Act.thread, hidle]
    rcases hpc with rfl | ⟨expected, desired, rfl⟩
    · exact .nothing rfl rfl rfl rfl
    · exact .nothing rfl rfl rfl rfl
  | run t => exact run_takes (t := t) hact (hpair.1 t) (htime t rfl)

/-- Where the runs are timely no two threads are inside the lock, and when all calls have
returned, the value is what they make of it in some order in which each returns what it
has returned. -/
theorem no_update_lost {s : Sys (Mem T × List (Call T)) (Pc T)}
    (h : (machine.record log).Reach (fun s a => timely s.forget a) (fresh v) s) :
    (∀ t w, (s.loc t).inside = true → (s.loc w).inside = true → t = w) ∧
      (Quiet s → ∃ order : List (Call T), order.Perm s.mem.2 ∧ replay v order = some s.mem.1.value) := by
  have hreach : machine.Reach timely (initial v) s.forget :=
    h.forget fun s hs => ⟨congrArg Prod.fst hs.1, hs.2⟩
  constructor
  · intro t w ht hw
    by_contra hne
    exact (paired_of_reach hreach).2 t w hne ⟨ht, hw⟩
  · intro hquiet
    obtain ⟨order, hreplay, -, hnone⟩ := ordered_of_reach h
    refine ⟨order, hnone fun t => ?_, hreplay⟩
    rw [Sys.forget, hquiet t]
    rfl

end Order

/-! ## Runs of 64-bit variables -/

section Runs

def zero : Sys (Mem (BitVec 64) × List (Call (BitVec 64))) (Pc (BitVec 64)) :=
  ⟨(⟨0, 0⟩, []), fun _ => .idle⟩

/-- While thread 0 adds 5, thread 1 fails to begin a store and thread 2 to exchange a 7;
thread 1 tries again after thread 0 has left, and once more. -/
def contended : List (Act (Op (BitVec 64))) :=
  [.call 0 (.fetchAdd 5), .call 1 (.store 9), .call 2 (.compareExchangeStrong 7 8), .run 0, .run 1,
    .run 2, .run 0, .run 0, .run 0, .run 0, .run 1, .run 1, .run 1, .run 1]

theorem contended_run : ((machine.record log).runUnder (fun s a => timely s.forget a) contended
    zero).any fun s => s.mem.1.value = 9 ∧ s.mem.2.length = 3 ∧ ∀ u < 3, s.loc u = .idle := by
  decide +kernel

theorem no_update_lost_contended : ∃ s : Sys (Mem (BitVec 64) × List (Call (BitVec 64))) (Pc (BitVec 64)),
    (machine.record log).Reach (fun s a => timely s.forget a) (fresh 0) s ∧ Quiet s ∧
      s.mem.2.length = 3 ∧ s.mem.1.value = 9 ∧
      ∃ order : List (Call (BitVec 64)), order.Perm s.mem.2 ∧ replay 0 order = some 9 := by
  obtain ⟨s, hs, hreach, hvalue, hlength, hidle⟩ :=
    Machine.reach_of_any (fresh 0) ⟨rfl, fun _ => rfl⟩ contended_run
  have hquiet : Quiet s := Machine.runUnder_rest (fun _ => rfl) (by decide) hs hidle
  exact ⟨s, hreach, hquiet, hlength, hvalue, hvalue ▸ (no_update_lost hreach).2 hquiet⟩

/-- Thread 1 finds the lock taken, and takes it from thread 0 at its second attempt. -/
def stolen : List (Act (Op (BitVec 64))) :=
  [.call 0 (.fetchAdd 1), .call 1 (.fetchAdd 1), .run 0, .run 1, .run 1]

theorem stolen_run : ((machine.record log).runUnder Machine.free stolen zero).any fun s =>
    (s.loc 0).inside = true ∧ (s.loc 1).inside = true := by
  decide +kernel

/-- Then both load 0 and store 1. -/
def bothAdd : List (Act (Op (BitVec 64))) :=
  stolen ++ [Act.run 0, Act.run 1, Act.run 0, Act.run 1, Act.run 0, Act.run 1, Act.run 0, Act.run 1]

theorem bothAdd_run : ((machine.record log).runUnder Machine.free bothAdd zero).any fun s =>
    s.mem = (⟨0, 1⟩, List.replicate 2 ⟨.fetchAdd 1, .value 0⟩) ∧ ∀ u < 2, s.loc u = .idle := by
  decide +kernel

/-- Two threads are inside the lock at once, and one of two additions is lost: no order of
the two has both return 0. -/
theorem update_lost : (∃ s : Sys (Mem (BitVec 64) × List (Call (BitVec 64))) (Pc (BitVec 64)),
      (machine.record log).Reach Machine.free (fresh 0) s ∧
        (s.loc 0).inside = true ∧ (s.loc 1).inside = true) ∧
    ∃ s : Sys (Mem (BitVec 64) × List (Call (BitVec 64))) (Pc (BitVec 64)),
      (machine.record log).Reach Machine.free (fresh 0) s ∧ Quiet s ∧
        ∀ order : List (Call (BitVec 64)), order.Perm s.mem.2 →
          replay 0 order ≠ some s.mem.1.value := by
  constructor
  · obtain ⟨s, _, hreach, h⟩ := Machine.reach_of_any (fresh 0) ⟨rfl, fun _ => rfl⟩ stolen_run
    exact ⟨s, hreach, h⟩
  · obtain ⟨s, hs, hreach, hmem, hidle⟩ :=
      Machine.reach_of_any (fresh 0) ⟨rfl, fun _ => rfl⟩ bothAdd_run
    refine ⟨s, hreach,
      Machine.runUnder_rest (fun _ => rfl) (by decide) hs hidle, ?_⟩
    intro order hperm
    rw [hmem] at hperm ⊢
    rw [List.perm_replicate.mp hperm]
    decide

end Runs

end ShmPcc.DisagrCas
