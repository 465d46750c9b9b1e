import ShmPcc.Lib.Pool

/-!
# Threads with program counters

Where a statement is about where threads stand ("two operations are past their
wait loop"), or where a loop waits for another thread without a bound, the tree
of accesses of `Prog` is the wrong picture: it hides the position of a thread
in a continuation. A `Machine` shows it. The local state `L` of a thread holds
its program counter and its local variables, `run` is its next access, and
`call` is what a thread does to begin an operation. One access of one thread is
one step of the system, as in `Obj`, and the actions are those of `Obj`.

`Reach.invariant` is the one induction over runs: an invariant of the shared
state and an assertion of every thread at its program counter hold in every
reachable state when each access keeps the invariant, establishes the
assertion of the thread that made it, and does not disturb the assertions of
the others.
-/

namespace ShmPcc

open Function

/-- Threads with local states `L` over a shared state `σ`, calling operations
`Op`. -/
structure Machine (σ L Op : Type) where
  call : Nat → Op → L → σ → Option (L × σ)
  run : Nat → L → σ → Option (L × σ)

/-- The whole system at one moment. -/
structure Sys (σ L : Type) where
  mem : σ
  loc : Nat → L

variable {σ L Op : Type}

theorem Sys.loc_update {m : σ} {loc : Nat → L} {u : Nat} {l : L} :
    (Sys.mk m (update loc u l)).loc u = l := update_self ..

/-- The thread that acts. -/
def Act.thread : Act Op → Nat
  | .call t _ => t
  | .run t => t

namespace Machine

variable (M : Machine σ L Op)

/-- What the acting thread makes of its own state and of the shared one. -/
def act (s : Sys σ L) : Act Op → Option (L × σ)
  | .call t op => M.call t op (s.loc t) s.mem
  | .run t => M.run t (s.loc t) s.mem

def step (s : Sys σ L) (a : Act Op) : Option (Sys σ L) :=
  (M.act s a).map fun x => ⟨x.2, update s.loc a.thread x.1⟩

/-- Operations that run as a whole, one after the other. -/
def ofSteps (step : Op → σ → Option σ) : Machine σ Unit Op where
  call _ op _ m := (step op m).map fun m' => ((), m')
  run _ _ _ := none

/-- No restriction on the actions of a run. -/
def free (_ : Sys σ L) (_ : Act Op) : Prop := True

instance (s : Sys σ L) (a : Act Op) : Decidable (free s a) := .isTrue trivial

/-- A schedule, run where the restriction allows it. -/
def runUnder (K : Sys σ L → Act Op → Prop) [∀ s a, Decidable (K s a)] :
    List (Act Op) → Sys σ L → Option (Sys σ L)
  | [], s => some s
  | a :: as, s => if K s a then (M.step s a).bind (runUnder K as) else none

/-- The states that runs under a restriction reach. -/
inductive Reach (K : Sys σ L → Act Op → Prop) (init : Sys σ L → Prop) : Sys σ L → Prop where
  | init {s : Sys σ L} (h : init s) : Reach K init s
  | step {s s' : Sys σ L} (a : Act Op) (h : Reach K init s) (ha : K s a)
      (hs : M.step s a = some s') : Reach K init s'

variable {M} {K : Sys σ L → Act Op → Prop} {init : Sys σ L → Prop}

variable {s : Sys σ L}

theorem step_call {u : Nat} {op : Op} {l : L} {m : σ}
    (h : M.call u op (s.loc u) s.mem = some (l, m)) :
    M.step s (.call u op) = some ⟨m, update s.loc u l⟩ := by
  simp only [step, act, h, Option.map_some, Act.thread]

theorem step_run {u : Nat} {l : L} {m : σ} (h : M.run u (s.loc u) s.mem = some (l, m)) :
    M.step s (.run u) = some ⟨m, update s.loc u l⟩ := by
  simp only [step, act, h, Option.map_some, Act.thread]

variable {as : List (Act Op)}

/-- What the actions of a schedule keep, the schedule keeps. -/
theorem runUnder_keeps [∀ s a, Decidable (K s a)] {P : Sys σ L → Prop}
    (hP : ∀ a ∈ as, ∀ s s', P s → K s a → M.step s a = some s' → P s') :
    ∀ {s s' : Sys σ L}, P s → M.runUnder K as s = some s' → P s' := by
  induction as with
  | nil =>
    intro s s' h hr
    cases hr
    exact h
  | cons a as ih =>
    intro s s' h hr
    rw [runUnder] at hr
    split at hr
    · next ha =>
      obtain ⟨d, hd, hr⟩ := Option.bind_eq_some_iff.mp hr
      exact ih (fun b hb => hP b (.tail a hb)) (hP a (.head as) s d h ha hd) hr
    · cases hr

theorem Reach.of_runUnder [∀ s a, Decidable (K s a)] {s' : Sys σ L} (h : M.Reach K init s)
    (hr : M.runUnder K as s = some s') : M.Reach K init s' :=
  runUnder_keeps (fun a _ _ _ h ha hs => h.step a ha hs) h hr

/-- A run that was made, with what was found at its end. -/
theorem reach_of_any [∀ s a, Decidable (K s a)] {P : Sys σ L → Prop} [DecidablePred P]
    (init : Sys σ L → Prop) (h : init s)
    (hr : (M.runUnder K as s).any (fun s => decide (P s)) = true) :
    ∃ s', M.runUnder K as s = some s' ∧ M.Reach K init s' ∧ P s' := by
  obtain ⟨s', hs', hP⟩ := (Option.any_eq_true _ _).mp hr
  exact ⟨s', hs', .of_runUnder (.init h) hs', of_decide_eq_true hP⟩

theorem Reach.mono {K' : Sys σ L → Act Op → Prop} (hK : ∀ s a, K s a → K' s a)
    (h : M.Reach K init s) : M.Reach K' init s := by
  induction h with
  | init hs => exact .init hs
  | step a _ ha hs ih => exact .step a ih (hK _ a ha) hs

/-- What holds in every reachable state may be used at each step. -/
theorem Reach.and {P : Sys σ L → Prop} (hP : ∀ s, M.Reach K init s → P s) (h : M.Reach K init s) :
    M.Reach (fun s a => K s a ∧ P s) init s := by
  induction h with
  | init hs => exact .init hs
  | step a h ha hs ih => exact .step a ih ⟨ha, hP _ h⟩ hs

/-- Each step of one machine is at most one step of another. -/
theorem Reach.maps {σ' L' Op' : Type} {M' : Machine σ' L' Op'} {K' : Sys σ' L' → Act Op' → Prop}
    {init' : Sys σ' L' → Prop} {f : Sys σ L → Sys σ' L'} (hinit : ∀ s, init s → init' (f s))
    (hstep : ∀ s a s', K s a → M.step s a = some s' → f s' = f s ∨ ∃ a', K' (f s) a' ∧ M'.step (f s) a' = some (f s'))
    (h : M.Reach K init s) : M'.Reach K' init' (f s) := by
  induction h with
  | init hs => exact .init (hinit _ hs)
  | step a _ ha hs ih =>
    obtain heq | ⟨a', ha', hs'⟩ := hstep _ a _ ha hs
    · exact heq ▸ ih
    · exact .step a' ih ha' hs'

theorem runUnder_loc [∀ s a, Decidable (K s a)] {u : Nat} (hw : ∀ a ∈ as, a.thread ≠ u)
    {s s' : Sys σ L} (hr : M.runUnder K as s = some s') : s'.loc u = s.loc u := by
  refine runUnder_keeps (P := fun d => d.loc u = s.loc u) (fun a ha d d' hd _ hs => ?_) rfl hr
  obtain ⟨x, _, rfl⟩ := Option.map_eq_some_iff.mp hs
  exact (update_of_ne (Ne.symm (hw a ha)) ..).trans hd

/-- Threads that do not act are where they began. -/
theorem runUnder_rest_of_mem [∀ s a, Decidable (K s a)] {l : L} {s' : Sys σ L} (us : List Nat)
    (hs : ∀ u, s.loc u = l) (hus : ∀ a ∈ as, a.thread ∈ us) (hr : M.runUnder K as s = some s')
    (hl : ∀ u ∈ us, s'.loc u = l) (u : Nat) : s'.loc u = l := by
  by_cases hu : u ∈ us
  · exact hl u hu
  · have hw : ∀ a ∈ as, a.thread ≠ u := by
      intro a ha heq
      exact hu (heq ▸ hus a ha)
    rw [runUnder_loc hw hr]
    exact hs u

theorem runUnder_rest [∀ s a, Decidable (K s a)] {n : Nat} {l : L} {s' : Sys σ L}
    (hs : ∀ u, s.loc u = l) (hn : ∀ a ∈ as, a.thread < n) (hr : M.runUnder K as s = some s')
    (hl : ∀ u < n, s'.loc u = l) (u : Nat) : s'.loc u = l := by
  refine runUnder_rest_of_mem (List.range n) hs ?_ hr ?_ u
  · simpa using hn
  · simpa using hl

/-! ### What can still happen -/

section Leads

variable [∀ s a, Decidable (K s a)] {P Q : Sys σ L → Prop} {s s' : Sys σ L}

variable (M K) in
/-- Some schedule leads from `s` to where `P` holds. -/
def Leads (P : Sys σ L → Prop) (s : Sys σ L) : Prop := ∃ as s', M.runUnder K as s = some s' ∧ P s'

theorem Leads.here (h : P s) : M.Leads K P s := ⟨[], s, rfl, h⟩

theorem Leads.step {a : Act Op} (ha : K s a) (hs : M.step s a = some s') (h : M.Leads K P s') :
    M.Leads K P s := by
  obtain ⟨as, d, hrun, hd⟩ := h
  refine ⟨a :: as, d, ?_, hd⟩
  rw [runUnder, if_pos ha, hs]
  exact hrun

theorem Leads.run {u : Nat} {l l' : L} {m : σ} (ha : K s (.run u)) (hl : s.loc u = l)
    (hr : M.run u l s.mem = some (l', m)) (h : M.Leads K P ⟨m, update s.loc u l'⟩) :
    M.Leads K P s :=
  .step ha (step_run (hl ▸ hr)) h

theorem Leads.trans (h : M.Leads K P s) (hPQ : ∀ s', P s' → M.Leads K Q s') : M.Leads K Q s := by
  obtain ⟨as, d, hrun, hd⟩ := h
  induction as generalizing s with
  | nil =>
    cases hrun
    exact hPQ _ hd
  | cons a as ih =>
    rw [runUnder] at hrun
    split at hrun
    · next ha =>
      obtain ⟨e, he, hrun⟩ := Option.bind_eq_some_iff.mp hrun
      exact .step ha he (ih hrun)
    · cases hrun

theorem Leads.reach (hs : M.Reach K init s) (h : M.Leads K P s) :
    M.Leads K (fun s' => M.Reach K init s' ∧ P s') s := by
  obtain ⟨as, d, hrun, hd⟩ := h
  exact ⟨as, d, hrun, .of_runUnder hs hrun, hd⟩

/-- A schedule that can always take the next step, each of a smaller rank, comes to its end. -/
theorem Leads.of_rank {β : Type} {r : β → β → Prop} (hwf : WellFounded r) (rank : Sys σ L → β)
    {I : Sys σ L → Prop}
    (hstep : ∀ s, I s → P s ∨ ∃ a s', K s a ∧ M.step s a = some s' ∧ I s' ∧ r (rank s') (rank s))
    {s : Sys σ L} (hs : I s) : M.Leads K P s := by
  generalize hb : rank s = b
  induction b using hwf.induction generalizing s with
  | _ b ih =>
    obtain hP | ⟨a, s', ha, hstep', hI, hlt⟩ := hstep s hs
    · exact .here hP
    · exact .step ha hstep' (ih _ (hb ▸ hlt) hI rfl)

end Leads

/-- An invariant of the shared state with an assertion of each thread. -/
def Holds (G : σ → Prop) (T : Nat → L → σ → Prop) (s : Sys σ L) : Prop :=
  G s.mem ∧ ∀ t, T t (s.loc t) s.mem

variable {T : Nat → L → σ → Prop}

/-- What the actions keep, runs keep. -/
theorem Reach.invariant {G : σ → Prop} (hinit : ∀ s, init s → Holds G T s)
    (hstep : ∀ s a l m, Holds G T s → K s a → M.act s a = some (l, m) → G m ∧ T a.thread l m ∧ ∀ u, u ≠ a.thread → T u (s.loc u) m)
    (h : M.Reach K init s) : Holds G T s := by
  induction h with
  | init hs => exact hinit _ hs
  | @step s s' a _ ha hs ih =>
    obtain ⟨⟨l, m⟩, hx, rfl⟩ := Option.map_eq_some_iff.mp hs
    obtain ⟨hG, hT, hrest⟩ := hstep s a l m ih ha hx
    refine ⟨hG, fun u => ?_⟩
    by_cases hu : u = a.thread
    · rw [hu]
      dsimp only
      rw [update_self]
      exact hT
    · dsimp only
      rw [update_of_ne hu]
      exact hrest u hu

/-- What each operation keeps, sequences of them keep. -/
theorem Reach.ofSteps_invariant {step : Op → σ → Option σ} {K : Sys σ Unit → Act Op → Prop}
    {init : Sys σ Unit → Prop} {G : σ → Prop} (hinit : ∀ s, init s → G s.mem)
    (hstep : ∀ (s : Sys σ Unit) t op m, G s.mem → K s (.call t op) → step op s.mem = some m → G m)
    {s : Sys σ Unit} (h : (ofSteps step).Reach K init s) : G s.mem := by
  refine (h.invariant (T := fun _ _ _ => True) (fun s hs => ⟨hinit s hs, fun _ => trivial⟩) ?_).1
  intro s a l m hG ha hact
  cases a with
  | call t op =>
    obtain ⟨m', hm, heq⟩ := Option.map_eq_some_iff.mp hact
    cases heq
    exact ⟨hstep s t op m hG.1 ha hm, trivial, fun _ _ => trivial⟩
  | run t => cases hact

/-- An assertion of each thread, and one of each two threads about where both of
them are. -/
def Paired (T : Nat → L → σ → Prop) (R : Nat → L → Nat → L → σ → Prop) (s : Sys σ L) : Prop :=
  (∀ t, T t (s.loc t) s.mem) ∧ ∀ t w, t ≠ w → R t (s.loc t) w (s.loc w) s.mem

/-- The induction over runs where what a thread knows is about the program counters of
the others. -/
theorem Reach.paired {R : Nat → L → Nat → L → σ → Prop} (hinit : ∀ s, init s → Paired T R s)
    (hstep : ∀ s a l m, Paired T R s → K s a → M.act s a = some (l, m) → T a.thread l m ∧ (∀ w, w ≠ a.thread → T w (s.loc w) m) ∧ (∀ w, w ≠ a.thread → R a.thread l w (s.loc w) m ∧ R w (s.loc w) a.thread l m) ∧ ∀ w w', w ≠ a.thread → w' ≠ a.thread → w ≠ w' → R w (s.loc w) w' (s.loc w') m)
    (h : M.Reach K init s) : Paired T R s := by
  induction h with
  | init hs => exact hinit _ hs
  | @step s s' a _ ha hs ih =>
    obtain ⟨⟨l, m⟩, hx, rfl⟩ := Option.map_eq_some_iff.mp hs
    obtain ⟨hT, hTs, hR, hRs⟩ := hstep s a l m ih ha hx
    have hself : update s.loc a.thread l a.thread = l := update_self ..
    have hother : ∀ w, w ≠ a.thread → update s.loc a.thread l w = s.loc w :=
      fun w hw => update_of_ne hw ..
    constructor
    · intro t
      by_cases ht : t = a.thread
      · simp only [ht, hself]
        exact hT
      · simp only [hother t ht]
        exact hTs t ht
    · intro t w htw
      by_cases ht : t = a.thread
      · have hw : w ≠ a.thread := fun hw => htw (ht.trans hw.symm)
        simp only [ht, hself, hother w hw]
        exact (hR w hw).1
      · by_cases hw : w = a.thread
        · simp only [hw, hself, hother t ht]
          exact (hR t ht).2
        · simp only [hother t ht, hother w hw]
          exact hRs t w ht hw htw

/-- The same where the assertion of two threads is symmetric and says nothing of the memory. -/
theorem Reach.paired_symm {R : L → L → Prop} (hsymm : ∀ l l', R l l' → R l' l)
    (hinit : ∀ s, init s → Paired T (fun _ l _ l' _ => R l l') s)
    (hstep : ∀ s a l m, Paired T (fun _ l _ l' _ => R l l') s → K s a → M.act s a = some (l, m) → T a.thread l m ∧ ∀ w, w ≠ a.thread → T w (s.loc w) m ∧ R l (s.loc w))
    (h : M.Reach K init s) : Paired T (fun _ l _ l' _ => R l l') s := by
  refine h.paired hinit ?_
  intro s a l m hpair ha hact
  obtain ⟨hself, hothers⟩ := hstep s a l m hpair ha hact
  refine ⟨hself, fun w hw => (hothers w hw).1, fun w hw => ?_, fun w w' _ _ hne => hpair.2 w w' hne⟩
  have hR := (hothers w hw).2
  exact ⟨hR, hsymm _ _ hR⟩

end Machine

/-! ### Histories

A history is a list that grows at its end; its positions are tickets. -/

theorem getElem?_append_one {α : Type} {l : List α} {i : Nat} {x y : α}
    (h : (l ++ [y])[i]? = some x) : l[i]? = some x ∨ i = l.length ∧ y = x := by
  by_cases hi : i < l.length
  · rw [List.getElem?_append_left hi] at h
    exact .inl h
  · rw [List.getElem?_append_right (Nat.le_of_not_lt hi)] at h
    obtain ⟨hlt, hx⟩ := List.getElem?_eq_some_iff.mp h
    rw [List.length_singleton] at hlt
    exact .inr ⟨by omega, by simpa using hx⟩

end ShmPcc
