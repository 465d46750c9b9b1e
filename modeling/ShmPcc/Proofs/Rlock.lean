import ShmPcc.Ref.Rlock

/-!
# What rlock_cas returns, and who holds the lock

A thread takes the lock by an access that finds the word 0 and leaves it non-zero, and a
thread that holds the lock has a non-zero word, so nobody can take it meanwhile. That is
the whole argument for `rlock_lock` and `rlock_tas`, whose compare-and-swap is also what
they report. `rlock_cas` reports an earlier load. Where the word has not changed since,
the report is the one the compare-and-swap would have given, and the argument holds for
it too; `both_hold` is the run in which the word has changed.
-/

namespace ShmPcc.Rlock

variable {s : Sys Mem Local} {l l' : Local} {m m' : Mem} {t : Nat} {op : Op}

/-- The arguments of a call under way are those of `locking`. -/
def Local.used (l : Local) : Prop :=
  match l.pc with
  | .lockCas desired _ | .lockOwner desired _ => desired ≠ 0
  | .unlockStore => l.holds = true
  | .casLoad expected desired | .casSwap expected desired _ => expected = 0 ∧ desired ≠ 0
  | _ => True

/-- A call of `rlock_cas` reports what it did. -/
def CasCall.honest (c : CasCall) : Prop := c.returned = c.expected ↔ c.swapped = true

structure Own (l : Local) (m : Mem) : Prop where
  used : l.used
  locked : l.holds = true → m.lock ≠ 0
  honest : ∀ c, l.cas = some c → c.honest

/-- What a step is to the other threads: it leaves a taken lock taken, it takes a free
lock, or it gives up the thread's own. -/
inductive Effect (l : Local) (m : Mem) (l' : Local) (m' : Mem) : Prop where
  | keep (hl : l'.holds = l.holds) (hm : m.lock ≠ 0 → m'.lock ≠ 0)
  | take (hfree : m.lock = 0) (hm : m'.lock ≠ 0)
  | drop (hl : l.holds = true) (hl' : l'.holds = false)

theorem call_own (h : call t op l m = some (l', m')) (hown : Own l m)
    (hused : locking s (.call t op)) (hl : s.loc t = l) :
    Own l' m' ∧ m' = m ∧ l'.holds = l.holds := by
  unfold call at h
  split at h
  case h_5 => cases h
  all_goals
    cases h
    refine ⟨⟨?_, hown.locked, hown.honest⟩, rfl, rfl⟩
  case h_1 => exact hused
  case h_2 =>
    subst hl
    exact hused
  case h_3 => exact hused
  case h_4 => trivial

theorem run_own (h : run t l m = some (l', m')) (hown : Own l m) (hsame : l.unchanged m = true) :
    Own l' m' ∧ Effect l m l' m' := by
  obtain ⟨pc, holds, cas⟩ := l
  obtain ⟨hused, hlocked, hhonest⟩ := hown
  cases pc <;>
    simp only [run, Mem.compareExchangeStrong, Local.used, Local.unchanged, reduceCtorEq] at h hused hsame
  case lockCas desired owner =>
    split at h
    · next hfree =>
      cases h
      exact ⟨⟨trivial, fun _ => hused, hhonest⟩, .take hfree hused⟩
    · cases h
      exact ⟨⟨hused, hlocked, hhonest⟩, .keep rfl id⟩
  case lockOwner desired owner =>
    cases h
    exact ⟨⟨hused, hlocked, hhonest⟩, .keep rfl id⟩
  case unlockStore =>
    cases h
    exact ⟨⟨trivial, nofun, hhonest⟩, .drop hused rfl⟩
  case unlockOwner =>
    cases h
    exact ⟨⟨trivial, hlocked, hhonest⟩, .keep rfl id⟩
  case casLoad expected desired =>
    cases h
    exact ⟨⟨hused, hlocked, hhonest⟩, .keep rfl id⟩
  case casSwap expected desired ll =>
    obtain ⟨rfl, hdesired⟩ := hused
    -- the word is the loaded one, so the swap is made exactly if a 0 is returned
    obtain rfl := eq_of_beq hsame
    split at h
    · next hfree =>
      cases h
      refine ⟨⟨trivial, fun _ => hdesired, ?_⟩, .take hfree hdesired⟩
      intro c hc
      cases hc
      simpa [CasCall.honest] using hfree
    · next htaken =>
      cases h
      refine ⟨⟨trivial, ?_, ?_⟩, .keep ?_ id⟩
      · intro _
        exact htaken
      · intro c hc
        cases hc
        simpa [CasCall.honest] using htaken
      · simpa using fun h => absurd h htaken
  case tasLoad =>
    cases h
    exact ⟨⟨trivial, hlocked, hhonest⟩, .keep rfl id⟩
  case tasSwap oldval =>
    have hset : (0xFF : UInt8) ≠ 0 := by decide
    split at h
    · next hold =>
      cases h
      refine ⟨⟨trivial, fun _ => hset, hhonest⟩, ?_⟩
      by_cases hfree : m.lock = 0
      · exact .take hfree hset
      · refine .keep ?_ fun _ => hset
        simpa using fun h => absurd (hold.trans h) hfree
    · cases h
      exact ⟨⟨trivial, hlocked, hhonest⟩, .keep rfl id⟩

/-- No two threads hold the lock. -/
def Apart (_ : Nat) (l : Local) (_ : Nat) (l' : Local) (_ : Mem) : Prop :=
  ¬ (l.holds = true ∧ l'.holds = true)

/-- What a thread does to the others: those that hold the lock still do, and are alone. -/
theorem Effect.others {l₁ : Local} (h : Effect l m l' m') (hown : Own l₁ m) {w : Nat}
    (hapart : Apart t l w l₁ m) : Own l₁ m' ∧ Apart t l' w l₁ m' := by
  rw [Apart] at hapart ⊢
  cases h with
  | keep hl hm => exact ⟨⟨hown.used, fun h => hm (hown.locked h), hown.honest⟩, hl ▸ hapart⟩
  | take hfree hm =>
    refine ⟨⟨hown.used, fun _ => hm, hown.honest⟩, ?_⟩
    intro ⟨_, h⟩
    exact hown.locked h hfree
  | drop hl hl' =>
    refine ⟨⟨hown.used, fun h => absurd ⟨hl, h⟩ hapart, hown.honest⟩, ?_⟩
    simp [hl']

theorem paired_of_reach (h : machine.Reach undisturbed fresh s) :
    Machine.Paired (fun _ => Own) Apart s := by
  refine h.paired_symm ?_ ?_ ?_
  · intro l l' hapart hboth
    exact hapart hboth.symm
  · intro s hs
    refine ⟨fun t => ?_, fun t w _ => ?_⟩
    · rw [hs t]
      exact ⟨trivial, nofun, nofun⟩
    · simp [hs t]
  · intro s a l m ⟨hown, hapart⟩ ⟨hused, hsame⟩ hact
    have hstep : Own l m ∧ Effect (s.loc a.thread) s.mem l m := by
      cases a with
      | call t op =>
        obtain ⟨hnew, rfl, hl⟩ := call_own hact (hown t) hused rfl
        exact ⟨hnew, .keep hl id⟩
      | run t => exact run_own (t := t) hact (hown t) (hsame t rfl)
    refine ⟨hstep.1, fun w hw => ?_⟩
    exact hstep.2.others (t := a.thread) (w := w) (hown w) (hapart a.thread w (Ne.symm hw))

/-- Where no `rlock_cas` finds another word than it loaded, each of them returns what it
expected exactly when it swapped, and one thread at most believes it holds the lock. -/
theorem rlockCas_excludes (h : machine.Reach undisturbed fresh s) :
    (∀ t c, (s.loc t).cas = some c → (c.returned = c.expected ↔ c.swapped = true)) ∧
      ∀ t w, (s.loc t).holds = true → (s.loc w).holds = true → t = w := by
  obtain ⟨hown, hapart⟩ := paired_of_reach h
  refine ⟨fun t => (hown t).honest, fun t w ht hw => ?_⟩
  by_contra hne
  exact hapart t w hne ⟨ht, hw⟩

def unlocked : Sys Mem Local := ⟨⟨0, 0⟩, fun _ => ⟨.idle, false, none⟩⟩

/-- Thread 1 fails against thread 0 by `rlock_cas`, and gets the released lock by
`rlock_tas`. -/
def handOver : List (Act Op) :=
  [.call 0 (.rlockCas 0 1), .run 0, .run 0, .call 1 (.rlockCas 0 2), .run 1, .run 1,
    .call 0 .rlockUnlock, .run 0, .call 1 .rlockTas, .run 1, .run 1]

theorem handOver_run : (machine.runUnder undisturbed handOver unlocked).any fun s =>
    s.mem.lock = 0xFF ∧ (s.loc 0).cas = some ⟨0, 0, true⟩ ∧
      s.loc 1 = ⟨.idle, true, some ⟨0, 1, false⟩⟩ := by
  decide +kernel

theorem rlockCas_excludes_handOver : ∃ s : Sys Mem Local, machine.Reach undisturbed fresh s ∧
    (s.loc 1).holds = true ∧ (s.loc 1).cas = some ⟨0, 1, false⟩ ∧
      (∀ t c, (s.loc t).cas = some c → (c.returned = c.expected ↔ c.swapped = true)) ∧
      ∀ w, (s.loc w).holds = true → 1 = w := by
  obtain ⟨s, _, hreach, -, -, h1⟩ := Machine.reach_of_any fresh (fun _ => rfl) handOver_run
  have hholds : (s.loc 1).holds = true := by rw [h1]
  obtain ⟨hcas, halone⟩ := rlockCas_excludes hreach
  exact ⟨s, hreach, hholds, by rw [h1], hcas, fun w hw => halone 1 w hholds hw⟩

/-- Both threads load the free word, and both are told so. -/
def bothLoad : List (Act Op) :=
  [.call 0 (.rlockCas 0 1), .call 1 (.rlockCas 0 1), .run 0, .run 1, .run 0, .run 1]

theorem bothLoad_run : (machine.runUnder locking bothLoad unlocked).any fun s =>
    s.loc 0 = ⟨.idle, true, some ⟨0, 0, true⟩⟩ ∧ s.loc 1 = ⟨.idle, true, some ⟨0, 0, false⟩⟩ := by
  decide +kernel

/-- The second `rlock_cas` returns the 0 it expected without having swapped, and both
threads believe they hold the lock. -/
theorem both_hold : ∃ s : Sys Mem Local, machine.Reach locking fresh s ∧
    (s.loc 1).cas = some ⟨0, 0, false⟩ ∧ (s.loc 0).holds = true ∧ (s.loc 1).holds = true := by
  obtain ⟨s, _, hreach, h0, h1⟩ := Machine.reach_of_any fresh (fun _ => rfl) bothLoad_run
  exact ⟨s, hreach, by rw [h1], by rw [h0], by rw [h1]⟩

end ShmPcc.Rlock
