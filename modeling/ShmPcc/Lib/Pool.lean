import ShmPcc.Lib.Prog

/-!
# A pool of threads calling the operations of one object

`Obj` is a shared object: the code of each operation and what a call demands
of the state it starts in. `Cfg` is the whole system at one moment, with its
past: threads are idle or inside an operation, every memory the system went
through is kept in order in `trail`, and every finished call is kept in
`hist` with the two places of the trail where it started and stopped. Two
calls are ordered in real time exactly when one stops before the other starts,
so a statement about the order of operations is a statement about `hist`, and
one about "some moment during the call" is a statement about a stretch of
`trail`.

`Cond` restricts runs: which calls are made, and in which states an access at
a label is taken. The unrestricted system is `Cond.free`.

An `Outline` is a rely-guarantee proof of an object. `Outline.sound` is the
only induction over runs anywhere above this file: every reachable
configuration has an invariant trail in which consecutive memories are
related by some thread's guarantee, and every finished call meets its
postcondition between the memory it started in and the memory it stopped in.
-/

namespace ShmPcc

open Function

/-- A shared object: operations `Op` with results `Ret` over memory `σ`.
`enter` is the demand a call makes of the memory it starts in, together with
the bookkeeping it does there; `leave` is the bookkeeping of the return. -/
structure Obj (Λ σ Op Ret : Type) where
  code : Nat → Op → Prog Λ σ Ret
  enter : Nat → Op → σ → Option σ
  leave : Nat → Op → Ret → σ → σ

/-- An operation in progress. -/
structure Active (Λ σ Op Ret : Type) where
  op : Op
  start : Nat
  code : Prog Λ σ Ret

/-- A finished call. -/
structure Call (Op Ret : Type) where
  thread : Nat
  op : Op
  ret : Ret
  start : Nat
  stop : Nat
deriving DecidableEq

/-- The system at one moment, with the memories it went through and the calls
it finished. -/
structure Cfg (Λ σ Op Ret : Type) where
  mem : σ
  trail : List σ
  thr : Nat → Option (Active Λ σ Op Ret)
  hist : List (Call Op Ret)

/-- What happens next: an idle thread calls an operation, or a busy one makes
its next access (or returns, when no access is left). -/
inductive Act (Op : Type) where
  | call (t : Nat) (op : Op)
  | run (t : Nat)

/-- A restriction on runs. -/
structure Cond (Λ σ Op : Type) where
  atCall : Nat → Op → σ → Prop
  atStep : Λ → σ → Prop

/-- No restriction. -/
def Cond.free {Λ σ Op : Type} : Cond Λ σ Op where
  atCall _ _ _ := True
  atStep _ _ := True

instance {Λ σ Op : Type} (t : Nat) (op : Op) (m : σ) :
    Decidable ((Cond.free : Cond Λ σ Op).atCall t op m) := .isTrue trivial

instance {Λ σ Op : Type} (l : Λ) (m : σ) :
    Decidable ((Cond.free : Cond Λ σ Op).atStep l m) := .isTrue trivial

variable {Λ σ Op Ret : Type}

/-- The system before the first call. -/
def Cfg.init (m : σ) : Cfg Λ σ Op Ret where
  mem := m
  trail := [m]
  thr _ := none
  hist := []

/-- Where the next access of thread `t` is, if there is one to come. -/
def Cfg.next (c : Cfg Λ σ Op Ret) (t : Nat) : Option Λ :=
  match c.thr t with
  | some ⟨_, _, .step l _ _⟩ => some l
  | _ => none

/-- The run `d`, made from where `c` has stopped with no thread busy: its
positions in the trail are counted from there. -/
def Cfg.after (c d : Cfg Λ σ Op Ret) : Cfg Λ σ Op Ret where
  mem := d.mem
  trail := c.trail ++ d.trail.tail
  thr t := (d.thr t).map fun a => { a with start := c.trail.length - 1 + a.start }
  hist := c.hist ++ d.hist.map fun r =>
    { r with start := c.trail.length - 1 + r.start, stop := c.trail.length - 1 + r.stop }

theorem Cfg.next_after (c d : Cfg Λ σ Op Ret) (t : Nat) : (c.after d).next t = d.next t := by
  simp only [next, after]
  cases d.thr t with
  | none => rfl
  | some a =>
    obtain ⟨op, st, code⟩ := a
    cases code <;> rfl

namespace Obj

variable (O : Obj Λ σ Op Ret)

/-- One action, where it is possible. -/
def step (c : Cfg Λ σ Op Ret) : Act Op → Option (Cfg Λ σ Op Ret)
  | .call t op =>
    match c.thr t, O.enter t op c.mem with
    | none, some m => some
        { mem := m
          trail := c.trail ++ [m]
          thr := update c.thr t (some ⟨op, c.trail.length, O.code t op⟩)
          hist := c.hist }
    | _, _ => none
  | .run t =>
    match c.thr t with
    | some ⟨op, st, .ret r⟩ => some
        { mem := O.leave t op r c.mem
          trail := c.trail ++ [O.leave t op r c.mem]
          thr := update c.thr t none
          hist := c.hist ++ [⟨t, op, r, st, c.trail.length⟩] }
    | some ⟨op, st, .step _ u n⟩ => some
        { mem := u c.mem
          trail := c.trail ++ [u c.mem]
          thr := update c.thr t (some ⟨op, st, n c.mem⟩)
          hist := c.hist }
    | _ => none

/-- The restriction, read at an action. -/
def allows (K : Cond Λ σ Op) (c : Cfg Λ σ Op Ret) : Act Op → Prop
  | .call t op => K.atCall t op c.mem
  | .run t =>
    match c.thr t with
    | some ⟨_, _, .step l _ _⟩ => K.atStep l c.mem
    | _ => True

instance (K : Cond Λ σ Op) [∀ t op m, Decidable (K.atCall t op m)]
    [∀ l m, Decidable (K.atStep l m)] (c : Cfg Λ σ Op Ret) (a : Act Op) :
    Decidable (allows K c a) :=
  match a with
  | .call t op => inferInstanceAs (Decidable (K.atCall t op c.mem))
  | .run t =>
    match h : c.thr t with
    | some ⟨_, _, .step l _ _⟩ =>
      decidable_of_iff (K.atStep l c.mem) (by simp only [allows, h])
    | some ⟨_, _, .ret _⟩ => .isTrue (by simp only [allows, h])
    | some ⟨_, _, .halt⟩ => .isTrue (by simp only [allows, h])
    | none => .isTrue (by simp only [allows, h])

/-- A schedule, run where the restriction allows it. -/
def runUnder (K : Cond Λ σ Op) [∀ t op m, Decidable (K.atCall t op m)]
    [∀ l m, Decidable (K.atStep l m)] :
    List (Act Op) → Cfg Λ σ Op Ret → Option (Cfg Λ σ Op Ret)
  | [], c => some c
  | a :: as, c =>
    if allows K c a then (O.step c a).bind (runUnder K as) else none

/-- The configurations that runs under a restriction reach. -/
inductive Reach (K : Cond Λ σ Op) (init : σ → Prop) : Cfg Λ σ Op Ret → Prop where
  | init {m : σ} (h : init m) : Reach K init (Cfg.init m)
  | step {c c' : Cfg Λ σ Op Ret} (a : Act Op) (h : Reach K init c)
      (ha : allows K c a) (hs : O.step c a = some c') : Reach K init c'

variable {O}

variable {K : Cond Λ σ Op} {init : σ → Prop}

/-- What the actions of a schedule keep, the schedule keeps. -/
theorem runUnder_keeps [∀ t op m, Decidable (K.atCall t op m)] [∀ l m, Decidable (K.atStep l m)]
    {P : Cfg Λ σ Op Ret → Prop} {as : List (Act Op)}
    (hP : ∀ a ∈ as, ∀ c c', P c → allows K c a → O.step c a = some c' → P c') :
    ∀ {c c' : Cfg Λ σ Op Ret}, P c → O.runUnder K as c = some c' → P c' := by
  induction as with
  | nil =>
    intro c c' h hr
    cases hr
    exact h
  | cons a as ih =>
    intro c c' h hr
    rw [runUnder] at hr
    split at hr
    · next ha =>
      obtain ⟨d, hd, hr⟩ := Option.bind_eq_some_iff.mp hr
      exact ih (fun b hb => hP b (.tail a hb)) (hP a (.head as) c d h ha hd) hr
    · cases hr

theorem Reach.of_runUnder [∀ t op m, Decidable (K.atCall t op m)] [∀ l m, Decidable (K.atStep l m)]
    {as : List (Act Op)} {c c' : Cfg Λ σ Op Ret} (h : O.Reach K init c)
    (hr : O.runUnder K as c = some c') : O.Reach K init c' :=
  runUnder_keeps (fun a _ _ _ h ha hs => h.step a ha hs) h hr

/-- A run that was made, with what was found at its end. -/
theorem Reach.of_any [∀ t op m, Decidable (K.atCall t op m)] [∀ l m, Decidable (K.atStep l m)]
    {as : List (Act Op)} {c : Cfg Λ σ Op Ret} {P : Cfg Λ σ Op Ret → Prop} [DecidablePred P]
    (h : O.Reach K init c) (hr : (O.runUnder K as c).any (fun c => decide (P c)) = true) :
    ∃ c', O.Reach K init c' ∧ P c' := by
  obtain ⟨c', hc', hP⟩ := (Option.any_eq_true _ _).mp hr
  exact ⟨c', h.of_runUnder hc', of_decide_eq_true hP⟩

variable {c : Cfg Λ σ Op Ret}

theorem Reach.mono {K' : Cond Λ σ Op} (hcall : ∀ t op m, K.atCall t op m → K'.atCall t op m)
    (hstep : ∀ l m, K.atStep l m → K'.atStep l m) (h : O.Reach K init c) : O.Reach K' init c := by
  induction h with
  | init hm => exact .init hm
  | @step c c' a _ ha hs ih =>
    refine ih.step a ?_ hs
    cases a with
    | call t op => exact hcall _ _ _ ha
    | run t =>
      simp only [allows] at ha ⊢
      split at ha
      · exact hstep _ _ ha
      · trivial

/-- What one action does. -/
inductive Stepped (O : Obj Λ σ Op Ret) (c : Cfg Λ σ Op Ret) : Act Op → Cfg Λ σ Op Ret → Prop where
  | call {t : Nat} {op : Op} {m : σ} (ht : c.thr t = none) (he : O.enter t op c.mem = some m) :
    Stepped O c (.call t op) ⟨m, c.trail ++ [m],
      update c.thr t (some ⟨op, c.trail.length, O.code t op⟩), c.hist⟩
  | ret {t st : Nat} {op : Op} {r : Ret} (ht : c.thr t = some ⟨op, st, .ret r⟩) :
    Stepped O c (.run t) ⟨O.leave t op r c.mem, c.trail ++ [O.leave t op r c.mem],
      update c.thr t none, c.hist ++ [⟨t, op, r, st, c.trail.length⟩]⟩
  | access {t st : Nat} {op : Op} {l : Λ} {u : σ → σ} {n : σ → Prog Λ σ Ret}
    (ht : c.thr t = some ⟨op, st, .step l u n⟩) :
    Stepped O c (.run t) ⟨u c.mem, c.trail ++ [u c.mem],
      update c.thr t (some ⟨op, st, n c.mem⟩), c.hist⟩

theorem stepped {c' : Cfg Λ σ Op Ret} {a : Act Op} (hs : O.step c a = some c') :
    O.Stepped c a c' := by
  cases a with
  | call t op =>
    simp only [step] at hs
    split at hs
    · next ht he =>
      cases hs
      exact .call ht he
    · cases hs
  | run t =>
    simp only [step] at hs
    split at hs
    · next ht =>
      cases hs
      exact .ret ht
    · next ht =>
      cases hs
      exact .access ht
    · cases hs

theorem step_trail {c' : Cfg Λ σ Op Ret} {a : Act Op} (hs : O.step c a = some c') :
    c'.trail = c.trail ++ [c'.mem] := by
  cases stepped hs <;> rfl

/-- A busy thread after an action is the one that acted, or was busy before. -/
theorem thr_update {α : Type} {thr : Nat → Option α} {t u : Nat} {o : Option α} {a : α}
    (h : update thr t o u = some a) : u = t ∧ o = some a ∨ u ≠ t ∧ thr u = some a := by
  rw [update_apply] at h
  split at h
  · next hu => exact .inl ⟨hu, h⟩
  · next hu => exact .inr ⟨hu, h⟩

theorem Reach.head (h : O.Reach K init c) : ∃ m rest, init m ∧ c.trail = m :: rest := by
  induction h with
  | init hm => exact ⟨_, [], hm, rfl⟩
  | step a _ _ hs ih =>
    obtain ⟨m, rest, hm, hc⟩ := ih
    exact ⟨m, rest ++ [_], hm, by rw [step_trail hs, hc]; rfl⟩

/-- A thread that runs alone from here on returns what `exec` says, and leaves
the memory `exec` says. -/
theorem runs_alone {p : Prog Λ σ Ret} : ∀ {c : Cfg Λ σ Op Ret} {t st : Nat} {op : Op}
    {r : Ret} {m : σ}, c.thr t = some ⟨op, st, p⟩ → p.exec c.mem = some (r, m) →
    ∃ n c', O.runUnder Cond.free (List.replicate n (.run t)) c = some c' ∧
      c'.mem = O.leave t op r m ∧
      c'.thr = update c.thr t none ∧
      c'.hist = c.hist ++ [⟨t, op, r, st, c'.trail.length - 1⟩] := by
  induction p with
  | ret a =>
    intro c t st op r m ht hx
    injection hx with hx
    injection hx with h1 h2
    subst h1 h2
    refine ⟨1, ⟨O.leave t op a c.mem, c.trail ++ [O.leave t op a c.mem],
      update c.thr t none, c.hist ++ [⟨t, op, a, st, c.trail.length⟩]⟩, ?_, rfl, rfl, ?_⟩
    · rw [List.replicate_one, runUnder, if_pos (by simp only [allows, ht])]
      simp only [step, ht]
      rfl
    · simp
  | halt =>
    intro c t st op r m ht hx
    cases hx
  | step l u n ih =>
    intro c t st op r m ht hx
    have hthr : (update c.thr t (some ⟨op, st, n c.mem⟩)) t =
        some ⟨op, st, n c.mem⟩ := update_self ..
    obtain ⟨k, c', hrun, hm, hth, hh⟩ := @ih c.mem
      ⟨u c.mem, c.trail ++ [u c.mem],
        update c.thr t (some ⟨op, st, n c.mem⟩), c.hist⟩ t st op r m hthr hx
    refine ⟨k + 1, c', ?_, hm, ?_, hh⟩
    · rw [List.replicate_succ, runUnder, if_pos (by simp only [allows, ht]; trivial)]
      simp only [step, ht]
      exact hrun
    · rw [hth]
      exact update_idem ..

variable {t : Nat}

/-- The same for a whole call of an idle thread. -/
theorem call_alone {op : Op} {r : Ret} {m₀ m : σ} (ht : c.thr t = none)
    (he : O.enter t op c.mem = some m₀) (hx : (O.code t op).exec m₀ = some (r, m)) :
    ∃ n c', O.runUnder Cond.free (.call t op :: List.replicate n (.run t)) c = some c' ∧
      c'.mem = O.leave t op r m ∧ c'.thr = c.thr ∧
      c'.hist = c.hist ++ [⟨t, op, r, c.trail.length, c'.trail.length - 1⟩] := by
  have hthr : (update c.thr t (some ⟨op, c.trail.length, O.code t op⟩)) t =
      some ⟨op, c.trail.length, O.code t op⟩ := update_self ..
  obtain ⟨n, c', hrun, hm, hth, hh⟩ := runs_alone (O := O)
    (c := ⟨m₀, c.trail ++ [m₀], update c.thr t
      (some ⟨op, c.trail.length, O.code t op⟩), c.hist⟩) hthr hx
  refine ⟨n, c', ?_, hm, ?_, hh⟩
  · rw [runUnder, if_pos (show allows Cond.free c (.call t op) from trivial)]
    simp only [step, ht, he]
    exact hrun
  · rw [hth]
    rw [update_idem, update_eq_self_iff]
    exact ht.symm

/-- A whole call with nothing in between. -/
def exec (O : Obj Λ σ Op Ret) (t : Nat) (op : Op) (m : σ) : Option (Ret × σ) :=
  (O.enter t op m).bind fun m₀ =>
    ((O.code t op).exec m₀).map fun x => (x.1, O.leave t op x.1 x.2)

/-- Calls one after another: the results and the memory they leave, where all
of them return. -/
def execAll (O : Obj Λ σ Op Ret) : List (Nat × Op) → σ → Option (List Ret × σ)
  | [], m => some ([], m)
  | (t, op) :: rest, m =>
    (O.exec t op m).bind fun x => (execAll O rest x.2).map fun rs => (x.1 :: rs.1, rs.2)

/-- A demand on the memories in which the calls are made. -/
def Along (O : Obj Λ σ Op Ret) (P : Nat → Op → σ → Prop) : List (Nat × Op) → σ → Prop
  | [], _ => True
  | (t, op) :: rest, m => P t op m ∧ ∀ x, x ∈ O.exec t op m → Along O P rest x.2

instance Along.decidable {P : Nat → Op → σ → Prop} [∀ t op m, Decidable (P t op m)] :
    ∀ ops m, Decidable (O.Along P ops m)
  | [], _ => .isTrue trivial
  | (t, op) :: rest, m =>
    have : ∀ x : Ret × σ, Decidable (O.Along P rest x.2) := fun x => Along.decidable rest x.2
    inferInstanceAs (Decidable (P t op m ∧ ∀ x, x ∈ O.exec t op m → O.Along P rest x.2))

theorem Along.mono {P Q : Nat → Op → σ → Prop} (hPQ : ∀ t op m, P t op m → Q t op m) :
    ∀ {ops m}, O.Along P ops m → O.Along Q ops m
  | [], _, _ => trivial
  | (t, op) :: _, m, h => ⟨hPQ t op m h.1, fun x hx => (h.2 x hx).mono hPQ⟩

theorem exec_of_runs {op : Op} {m m₀ : σ} {Q : Ret → σ → Prop} (he : O.enter t op m = some m₀)
    (h : (O.code t op).runs Q m₀) :
    ∃ r m', O.exec t op m = some (r, O.leave t op r m') ∧ Q r m' := by
  obtain ⟨r, m', hx, hQ⟩ := Prog.runs_iff_exec.mp h
  exact ⟨r, m', by simp only [exec, he, hx, Option.bind_some, Option.map_some], hQ⟩

theorem execAll_cons {op : Op} {rest : List (Nat × Op)} {m m₁ m' : σ} {r : Ret} {rs : List Ret}
    (hx : O.exec t op m = some (r, m₁)) (hrest : O.execAll rest m₁ = some (rs, m')) :
    O.execAll ((t, op) :: rest) m = some (r :: rs, m') := by
  simp only [execAll, hx, hrest, Option.bind_some, Option.map_some]

/-! ### Runs put together -/

theorem Reach.trail_ne (h : O.Reach K init c) : c.trail ≠ [] := by
  obtain ⟨m, rest, _, hc⟩ := h.head
  rw [hc]
  exact List.cons_ne_nil _ _

theorem Reach.stop_lt (h : O.Reach K init c) : ∀ r ∈ c.hist, r.stop < c.trail.length := by
  induction h with
  | init hm => exact fun r hr => nomatch hr
  | step a _ _ hs ih =>
    intro r hr
    rw [step_trail hs, List.length_append, List.length_singleton]
    cases stepped hs with
    | call | access => exact Nat.lt_succ_of_lt (ih r hr)
    | ret =>
      rcases List.mem_append.mp hr with hr | hr
      · exact Nat.lt_succ_of_lt (ih r hr)
      · rw [List.mem_singleton.mp hr]
        exact Nat.lt_succ_self _

/-- The calls of one thread are made one after another. -/
theorem Reach.in_turn (h : O.Reach K init c) :
    c.hist.Pairwise (fun r r' => r.thread = r'.thread → r.stop < r'.start) ∧
      ∀ t a, c.thr t = some a → ∀ r ∈ c.hist, r.thread = t → r.stop < a.start := by
  induction h with
  | init hm => exact ⟨.nil, fun t a ha => nomatch ha⟩
  | @step c c' a hr _ hs ih =>
    obtain ⟨hpair, hthr⟩ := ih
    cases stepped hs with
    | call ht he =>
      refine ⟨hpair, fun u a ha r hmem hru => ?_⟩
      obtain ⟨_, heq⟩ | ⟨_, ha⟩ := thr_update ha
      · cases heq
        exact hr.stop_lt r hmem
      · exact hthr u a ha r hmem hru
    | ret ht =>
      refine ⟨List.pairwise_append.mpr ⟨hpair, List.pairwise_singleton _ _, ?_⟩, ?_⟩
      · intro r hmem r' hmem' heq
        rw [List.mem_singleton.mp hmem'] at heq ⊢
        exact hthr _ _ ht r hmem heq
      · intro u a ha r hmem hru
        obtain ⟨_, heq⟩ | ⟨hu, ha⟩ := thr_update ha
        · cases heq
        · rcases List.mem_append.mp hmem with hmem | hmem
          · exact hthr u a ha r hmem hru
          · rw [List.mem_singleton.mp hmem] at hru
            exact absurd hru.symm hu
    | access ht =>
      refine ⟨hpair, fun u a ha r hmem hru => ?_⟩
      obtain ⟨hu, heq⟩ | ⟨_, ha⟩ := thr_update ha
      · cases heq
        exact hthr _ _ ht r hmem (hru.trans hu)
      · exact hthr u a ha r hmem hru

variable {d : Cfg Λ σ Op Ret}

theorem step_after {d' : Cfg Λ σ Op Ret} {a : Act Op} (hc : c.trail ≠ []) (hd : d.trail ≠ [])
    (hs : O.step d a = some d') : O.step (c.after d) a = some (c.after d') := by
  have hlen : (c.trail ++ d.trail.tail).length = c.trail.length - 1 + d.trail.length := by
    have := List.length_pos_iff.mpr hc
    have := List.length_pos_iff.mpr hd
    rw [List.length_append, List.length_tail]
    omega
  have htail : ∀ m, c.trail ++ d.trail.tail ++ [m] = c.trail ++ (d.trail ++ [m]).tail := by
    intro m
    rw [List.tail_append_of_ne_nil hd, List.append_assoc]
  have hthr : ∀ t o, update (c.after d).thr t
      (Option.map (fun a => { a with start := c.trail.length - 1 + a.start }) o) =
      fun u => (update d.thr t o u).map fun a : Active Λ σ Op Ret =>
        { a with start := c.trail.length - 1 + a.start } := by
    intro t o
    funext u
    by_cases hu : u = t
    · rw [hu, update_self, update_self]
    · rw [update_of_ne hu, update_of_ne hu]
      rfl
  cases stepped hs with
  | @call t op m hidle henter =>
    have hthr := hthr t (some ⟨op, d.trail.length, O.code t op⟩)
    simp only [Option.map_some] at hthr
    simp only [step, Cfg.after, hidle, henter, Option.map_none, htail, hlen]
    simp only [Cfg.after] at hthr
    rw [hthr]
  | @ret t st op r ht =>
    have hthr := hthr t none
    simp only [Option.map_none] at hthr
    simp only [step, Cfg.after, ht, Option.map_some, htail, hlen, List.map_append,
      List.map_singleton, List.append_assoc]
    simp only [Cfg.after] at hthr
    rw [hthr]
  | @access t st op l u n ht =>
    have hthr := hthr t (some ⟨op, st, n d.mem⟩)
    simp only [Option.map_some] at hthr
    simp only [step, Cfg.after, ht, Option.map_some, htail]
    simp only [Cfg.after] at hthr
    rw [hthr]

theorem allows_after {a : Act Op} (h : allows K d a) : allows K (c.after d) a := by
  cases a with
  | call t op => exact h
  | run t =>
    simp only [allows, Cfg.after] at h ⊢
    cases ht : d.thr t with
    | none => trivial
    | some b =>
      obtain ⟨op, st, p⟩ := b
      rw [ht] at h
      cases p with
      | ret r => trivial
      | halt => trivial
      | step l u n => exact h

/-- A run that was made from a memory is a run from any configuration with that
memory and no busy thread. -/
theorem Reach.after [∀ t op m, Decidable (K.atCall t op m)] [∀ l m, Decidable (K.atStep l m)]
    (h : O.Reach K init c) (hidle : ∀ t, c.thr t = none) {as : List (Act Op)}
    (hr : O.runUnder K as (Cfg.init c.mem) = some d) : O.Reach K init (c.after d) := by
  have hc : c.after (Cfg.init c.mem) = c := by
    obtain ⟨mem, trail, thr, hist⟩ := c
    obtain rfl : thr = fun _ => none := funext hidle
    simp [Cfg.after, Cfg.init]
  refine (runUnder_keeps (P := fun d => d.trail ≠ [] ∧ O.Reach K init (c.after d)) ?_
    ⟨List.cons_ne_nil _ _, hc.symm ▸ h⟩ hr).2
  intro a _ d d' hd ha hs
  refine ⟨?_, hd.2.step a (allows_after ha) (step_after h.trail_ne hd.1 hs)⟩
  rw [step_trail hs]
  exact List.append_ne_nil_of_right_ne_nil _ (List.cons_ne_nil _ _)

/-- A thread that makes nothing but its accesses, under a restriction that is
only on calls. -/
theorem Reach.of_replicate (hK : ∀ l m, K.atStep l m) {n : Nat} {c c' : Cfg Λ σ Op Ret}
    (h : O.Reach K init c) (hr : O.runUnder Cond.free (List.replicate n (.run t)) c = some c') :
    O.Reach K init c' := by
  refine runUnder_keeps (fun a ha c c' h _ hs => h.step a ?_ hs) h hr
  rw [(List.mem_replicate.mp ha).2]
  simp only [allows]
  split
  · exact hK _ _
  · trivial

theorem Reach.runs_alone (hK : ∀ l m, K.atStep l m) {a : Active Λ σ Op Ret} {r : Ret} {m : σ}
    (h : O.Reach K init c) (ht : c.thr t = some a) (hx : a.code.exec c.mem = some (r, m)) :
    ∃ c' stop, O.Reach K init c' ∧ c'.mem = O.leave t a.op r m ∧
      c'.hist = c.hist ++ [⟨t, a.op, r, a.start, stop⟩] := by
  obtain ⟨n, c', hrun, hm, _, hh⟩ := Obj.runs_alone ht hx
  exact ⟨c', _, h.of_replicate hK hrun, hm, hh⟩

/-- Calls made one after another are a run. -/
theorem Reach.execAll (hK : ∀ l m, K.atStep l m) :
    ∀ {ops : List (Nat × Op)} {c : Cfg Λ σ Op Ret} {rs : List Ret} {m : σ},
    O.Reach K init c → (∀ x ∈ ops, c.thr x.1 = none) → O.Along K.atCall ops c.mem →
    O.execAll ops c.mem = some (rs, m) → ∃ c' new, O.Reach K init c' ∧ c'.mem = m ∧
      c'.thr = c.thr ∧ c'.hist = c.hist ++ new ∧
      new.map (fun r => ((r.thread, r.op), r.ret)) = ops.zip rs := by
  intro ops
  induction ops with
  | nil =>
    intro c rs m h _ _ hx
    simp only [Obj.execAll, Option.some.injEq, Prod.mk.injEq] at hx
    exact ⟨c, [], h, hx.2, rfl, (List.append_nil _).symm, by rw [← hx.1]; rfl⟩
  | cons x rest ih =>
    obtain ⟨t, op⟩ := x
    intro c rs m h hidle halong hx
    simp only [Obj.execAll, Obj.exec, Option.bind_eq_some_iff, Option.map_eq_some_iff] at hx
    obtain ⟨⟨r, m₁⟩, ⟨m₀, he, ⟨r', m'⟩, hcode, heq⟩, ⟨rs', m''⟩, hrest, hrs⟩ := hx
    obtain ⟨rfl, rfl⟩ := heq
    obtain ⟨rfl, rfl⟩ := hrs
    have hexec : O.exec t op c.mem = some (r', O.leave t op r' m') := by
      simp only [Obj.exec, he, hcode, Option.bind_some, Option.map_some]
    obtain ⟨n, c₁, hrun, hmem, hthr, hhist⟩ := call_alone (hidle _ (.head _)) he hcode
    have hreach : O.Reach K init c₁ := by
      rw [runUnder] at hrun
      split at hrun
      · obtain ⟨d, hd, hrun⟩ := Option.bind_eq_some_iff.mp hrun
        exact (h.step (.call t op) halong.1 hd).of_replicate hK hrun
      · cases hrun
    rw [← hmem] at hrest hexec
    obtain ⟨c', new, hc', hm', hthr', hnew, hmap⟩ := ih hreach
      (fun x hx => by rw [hthr]; exact hidle x (List.mem_cons_of_mem _ hx))
      (halong.2 _ hexec) hrest
    refine ⟨c', ⟨t, op, r', c.trail.length, c₁.trail.length - 1⟩ :: new, hc', hm',
      hthr'.trans hthr, ?_, ?_⟩
    · rw [hnew, hhist, List.append_assoc]
      rfl
    · rw [List.map_cons, hmap]
      rfl

end Obj

/-- What the threads other than `t` do in any number of moves. -/
def Others (inv : σ → Prop) (guar : Nat → σ → σ → Prop) (t : Nat) : σ → σ → Prop :=
  Relation.ReflTransGen fun a b => inv a ∧ inv b ∧ ∃ u, u ≠ t ∧ guar u a b

/-- The context of thread `t` where each thread relies on the guarantees of the
others. -/
def Ctx.pool (inv : σ → Prop) (guar : Nat → σ → σ → Prop) (guar_refl : ∀ t s, guar t s s)
    (ok : Λ → σ → Prop) (t : Nat) : Ctx Λ σ where
  inv := inv
  rely := Others inv guar t
  guar := guar t
  ok := ok
  rely_refl := fun _ => .refl
  rely_trans := fun _ _ _ => Relation.ReflTransGen.trans
  guar_refl := guar_refl t

/-- An assertion that each move of another thread keeps is kept by all. -/
theorem Others.kept {inv : σ → Prop} {guar : Nat → σ → σ → Prop} {t : Nat} {A : σ → Prop}
    (hA : ∀ {u a b}, u ≠ t → inv a → inv b → guar u a b → A a → A b) {s s' : σ}
    (hr : Others inv guar t s s') (h0 : A s) : A s' := by
  induction hr with
  | refl => exact h0
  | tail _ hab ih =>
    obtain ⟨ha, hb, u, hu, hg⟩ := hab
    exact hA hu ha hb hg ih

/-- A rely-guarantee proof of an object under a restriction on its runs. -/
structure Outline (O : Obj Λ σ Op Ret) (K : Cond Λ σ Op) where
  inv : σ → Prop
  rely : Nat → σ → σ → Prop
  guar : Nat → σ → σ → Prop
  post : Nat → Op → σ → Ret → σ → Prop
  rely_refl : ∀ t s, rely t s s
  rely_trans : ∀ t {s₁ s₂ s₃}, inv s₁ → inv s₂ → inv s₃ →
    rely t s₁ s₂ → rely t s₂ s₃ → rely t s₁ s₃
  guar_refl : ∀ t s, guar t s s
  guar_rely : ∀ {t u s s'}, t ≠ u → inv s → inv s' → guar t s s' → rely u s s'
  enter_ok : ∀ {t op s s'}, inv s → K.atCall t op s → O.enter t op s = some s' →
    inv s' ∧ guar t s s'
  code_ok : ∀ {t op s s'}, inv s → K.atCall t op s → O.enter t op s = some s' →
    Prog.wp ⟨inv, rely t, guar t, K.atStep, rely_refl t, rely_trans t, guar_refl t⟩
      (fun r m => inv (O.leave t op r m) ∧ guar t m (O.leave t op r m) ∧
        post t op s' r (O.leave t op r m)) (O.code t op) s'

namespace Outline

/-- A proof in which each thread relies on the guarantees of the others. -/
def ofMoves {O : Obj Λ σ Op Ret} {K : Cond Λ σ Op} (inv : σ → Prop)
    (guar : Nat → σ → σ → Prop) (post : Nat → Op → σ → Ret → σ → Prop)
    (guar_refl : ∀ t s, guar t s s)
    (enter_ok : ∀ {t op s s'}, inv s → K.atCall t op s → O.enter t op s = some s' →
      inv s' ∧ guar t s s')
    (code_ok : ∀ {t op s s'}, inv s → K.atCall t op s → O.enter t op s = some s' →
      Prog.wp (Ctx.pool inv guar guar_refl K.atStep t)
        (fun r m => inv (O.leave t op r m) ∧ guar t m (O.leave t op r m) ∧
          post t op s' r (O.leave t op r m)) (O.code t op) s') : Outline O K where
  inv := inv
  rely := Others inv guar
  guar := guar
  post := post
  rely_refl := fun _ _ => .refl
  rely_trans := fun _ _ _ _ _ _ _ => Relation.ReflTransGen.trans
  guar_refl := guar_refl
  guar_rely := fun hne hs hs' hg => .single ⟨hs, hs', _, hne, hg⟩
  enter_ok := enter_ok
  code_ok := code_ok

variable {O : Obj Λ σ Op Ret} {K : Cond Λ σ Op} (P : Outline O K)

/-- The context of one thread. -/
def ctx (t : Nat) : Ctx Λ σ :=
  ⟨P.inv, P.rely t, P.guar t, K.atStep, P.rely_refl t, P.rely_trans t, P.guar_refl t⟩

/-- What a thread owes when its code returns: the bookkeeping of the return is
a move like any other, and the postcondition is about the memory after it. -/
def returns (t : Nat) (op : Op) (m₀ : σ) (r : Ret) (m : σ) : Prop :=
  P.inv (O.leave t op r m) ∧ P.guar t m (O.leave t op r m) ∧
    P.post t op m₀ r (O.leave t op r m)

/-- What the proof says of a configuration. -/
structure Holds (c : Cfg Λ σ Op Ret) : Prop where
  last : ∃ pre, c.trail = pre ++ [c.mem]
  inv : ∀ m ∈ c.trail, P.inv m
  chain : List.IsChain (fun a b => ∃ t, P.guar t a b) c.trail
  active : ∀ t a, c.thr t = some a → ∃ m₀, c.trail[a.start]? = some m₀ ∧
    Prog.wp (P.ctx t) (P.returns t a.op m₀) a.code c.mem
  hist : ∀ r ∈ c.hist, ∃ m₀ m₁, c.trail[r.start]? = some m₀ ∧
    c.trail[r.stop]? = some m₁ ∧ r.start < r.stop ∧
    P.post r.thread r.op m₀ r.ret m₁

variable {P}

variable {c : Cfg Λ σ Op Ret}

theorem Holds.mem_inv (h : P.Holds c) : P.inv c.mem := by
  obtain ⟨pre, hp⟩ := h.last
  exact h.inv _ (by rw [hp]; simp)

theorem Holds.trail_mem (h : P.Holds c) : c.trail[c.trail.length - 1]? = some c.mem := by
  obtain ⟨pre, hp⟩ := h.last
  rw [hp]
  simp

variable {m : σ}

theorem getElem?_snoc {l : List σ} {x : σ} {i : Nat} (h : l[i]? = some x) :
    (l ++ [m])[i]? = some x := by
  obtain ⟨hi, hx⟩ := List.getElem?_eq_some_iff.mp h
  rw [List.getElem?_append_left hi, h]

variable {t : Nat}

/-- The part of the proof that does not mention threads, after one more memory
reached by thread `t`. -/
theorem Holds.snoc (h : P.Holds c) (hm : P.inv m) (hg : P.guar t c.mem m) :
    (∀ x ∈ c.trail ++ [m], P.inv x) ∧
      List.IsChain (fun a b => ∃ t, P.guar t a b) (c.trail ++ [m]) := by
  obtain ⟨pre, hp⟩ := h.last
  constructor
  · intro x hx
    rcases List.mem_append.mp hx with hx | hx
    · exact h.inv x hx
    · rw [List.mem_singleton.mp hx]; exact hm
  · refine List.isChain_append.mpr ⟨h.chain, List.isChain_singleton m, ?_⟩
    intro x hx y hy
    rw [hp] at hx
    simp only [List.getLast?_append, List.getLast?_singleton, Option.some_or,
      Option.mem_def, Option.some.injEq] at hx
    simp only [List.head?_cons, Option.mem_def, Option.some.injEq] at hy
    subst hx hy
    exact ⟨t, hg⟩

/-- The other threads' proofs, after a move of thread `t`. -/
theorem Holds.others (h : P.Holds c) (hm : P.inv m) (hg : P.guar t c.mem m) {u : Nat} (hu : u ≠ t)
    {a : Active Λ σ Op Ret} (ha : c.thr u = some a) : ∃ m₀, (c.trail ++ [m])[a.start]? = some m₀ ∧
      Prog.wp (P.ctx u) (P.returns u a.op m₀) a.code m := by
  obtain ⟨m₀, h0, hw⟩ := h.active u a ha
  exact ⟨m₀, getElem?_snoc h0,
    Prog.wp_rely hw h.mem_inv hm (P.guar_rely (Ne.symm hu) h.mem_inv hm hg)⟩

theorem Holds.hist_snoc (h : P.Holds c) (m : σ) :
    ∀ r ∈ c.hist, ∃ m₀ m₁, (c.trail ++ [m])[r.start]? = some m₀ ∧
      (c.trail ++ [m])[r.stop]? = some m₁ ∧ r.start < r.stop ∧
      P.post r.thread r.op m₀ r.ret m₁ := by
  intro r hr
  obtain ⟨m₀, m₁, h0, h1, hlt, hp⟩ := h.hist r hr
  exact ⟨m₀, m₁, getElem?_snoc h0, getElem?_snoc h1, hlt, hp⟩

theorem Holds.init (hm : P.inv m) : P.Holds (Cfg.init m) where
  last := ⟨[], rfl⟩
  inv := by
    intro x hx
    rw [List.mem_singleton.mp hx]
    exact hm
  chain := List.isChain_singleton m
  active := by
    intro t a ha
    cases ha
  hist := by
    intro r hr
    cases hr

theorem Holds.call (h : P.Holds c) {op : Op} (hk : K.atCall t op c.mem)
    (he : O.enter t op c.mem = some m) :
    P.Holds
      { mem := m
        trail := c.trail ++ [m]
        thr := update c.thr t (some ⟨op, c.trail.length, O.code t op⟩)
        hist := c.hist } := by
  obtain ⟨hm, hg⟩ := P.enter_ok h.mem_inv hk he
  obtain ⟨hi, hc⟩ := h.snoc hm hg
  refine ⟨⟨c.trail, rfl⟩, hi, hc, ?_, h.hist_snoc m⟩
  intro u a ha
  obtain ⟨rfl, heq⟩ | ⟨hu, ha⟩ := Obj.thr_update ha
  · cases heq
    exact ⟨m, by simp, P.code_ok h.mem_inv hk he⟩
  · exact h.others hm hg hu ha

theorem Holds.ret (h : P.Holds c) {st : Nat} {op : Op} {r : Ret}
    (ht : c.thr t = some ⟨op, st, .ret r⟩) :
    P.Holds
      { mem := O.leave t op r c.mem
        trail := c.trail ++ [O.leave t op r c.mem]
        thr := update c.thr t none
        hist := c.hist ++ [⟨t, op, r, st, c.trail.length⟩] } := by
  obtain ⟨m₀, h0, hw⟩ := h.active t _ ht
  obtain ⟨hm, hg, hp⟩ := hw c.mem (P.rely_refl t c.mem) h.mem_inv
  obtain ⟨hi, hc⟩ := h.snoc hm hg
  refine ⟨⟨c.trail, rfl⟩, hi, hc, ?_, ?_⟩
  · intro u a ha
    obtain ⟨_, heq⟩ | ⟨hu, ha⟩ := Obj.thr_update ha
    · cases heq
    · exact h.others hm hg hu ha
  · intro r' hr'
    rcases List.mem_append.mp hr' with hr' | hr'
    · exact h.hist_snoc _ r' hr'
    · rw [List.mem_singleton.mp hr']
      have hlt : st < c.trail.length := (List.getElem?_eq_some_iff.mp h0).1
      exact ⟨m₀, _, getElem?_snoc h0, by simp, hlt, hp⟩

theorem Holds.access (h : P.Holds c) {st : Nat} {op : Op} {l : Λ} {u : σ → σ} {n : σ → Prog Λ σ Ret}
    (hk : K.atStep l c.mem) (ht : c.thr t = some ⟨op, st, .step l u n⟩) :
    P.Holds
      { mem := u c.mem
        trail := c.trail ++ [u c.mem]
        thr := update c.thr t (some ⟨op, st, n c.mem⟩)
        hist := c.hist } := by
  obtain ⟨m₀, h0, hw⟩ := h.active t _ ht
  obtain ⟨hm, hg, hw'⟩ := hw c.mem (P.rely_refl t c.mem) h.mem_inv hk
  obtain ⟨hi, hc⟩ := h.snoc hm hg
  refine ⟨⟨c.trail, rfl⟩, hi, hc, ?_, h.hist_snoc _⟩
  intro v a ha
  obtain ⟨rfl, heq⟩ | ⟨hv, ha⟩ := Obj.thr_update ha
  · cases heq
    exact ⟨m₀, getElem?_snoc h0, hw'⟩
  · exact h.others hm hg hv ha

theorem Holds.step {c' : Cfg Λ σ Op Ret} (h : P.Holds c) {a : Act Op} (ha : Obj.allows K c a)
    (hs : O.step c a = some c') : P.Holds c' := by
  cases Obj.stepped hs with
  | call ht he => exact h.call ha he
  | ret ht => exact h.ret ht
  | access ht =>
    simp only [Obj.allows, ht] at ha
    exact h.access ha ht

variable {init : σ → Prop}

/-- Every reachable configuration bears the proof out. -/
theorem sound (P : Outline O K) (hinit : ∀ m, init m → P.inv m) (h : O.Reach K init c) :
    P.Holds c := by
  induction h with
  | init hm => exact .init (hinit _ hm)
  | step a _ ha hs ih => exact ih.step ha hs

/-- The code of each thread goes on to meet its checks. -/
theorem checked (P : Outline O K) {chk : Nat → Λ → σ → Prop}
    (hcode : ∀ {t op s s'}, P.inv s → K.atCall t op s → O.enter t op s = some s' → ∃ Q, Prog.wpc (P.ctx t) (chk t) Q (O.code t op) s')
    (hinit : ∀ m, init m → P.inv m) (h : O.Reach K init c) :
    ∀ t a, c.thr t = some a → ∃ Q, Prog.wpc (P.ctx t) (chk t) Q a.code c.mem := by
  induction h with
  | init hm => exact fun t a ha => nomatch ha
  | @step c c' act hr hallow hs ih =>
    have hH := P.sound hinit hr
    have hH' := hH.step hallow hs
    -- a thread that does not act relies on the move of the one that does
    have hothers : ∀ {t u a}, u ≠ t → c.thr u = some a → P.guar t c.mem c'.mem →
        ∃ Q, Prog.wpc (P.ctx u) (chk u) Q a.code c'.mem := by
      intro t u a hu ha hg
      obtain ⟨Q, hQ⟩ := ih u a ha
      exact ⟨Q, Prog.wpc_rely hQ hH.mem_inv hH'.mem_inv
        (P.guar_rely (Ne.symm hu) hH.mem_inv hH'.mem_inv hg)⟩
    intro u a ha
    cases Obj.stepped hs with
    | call ht henter =>
      obtain ⟨rfl, heq⟩ | ⟨hu, ha⟩ := Obj.thr_update ha
      · cases heq
        exact hcode hH.mem_inv hallow henter
      · exact hothers hu ha (P.enter_ok hH.mem_inv hallow henter).2
    | ret ht =>
      obtain ⟨_, heq⟩ | ⟨hu, ha⟩ := Obj.thr_update ha
      · cases heq
      · obtain ⟨m₀, _, hw⟩ := hH.active _ _ ht
        exact hothers hu ha (hw c.mem (P.rely_refl _ c.mem) hH.mem_inv).2.1
    | access ht =>
      simp only [Obj.allows, ht] at hallow
      obtain ⟨Q, hQ⟩ := ih _ _ ht
      obtain ⟨_, _, hg, hnext⟩ := hQ c.mem (P.rely_refl _ c.mem) hH.mem_inv hallow
      obtain ⟨rfl, heq⟩ | ⟨hu, ha⟩ := Obj.thr_update ha
      · cases heq
        exact ⟨Q, hnext⟩
      · exact hothers hu ha hg

/-- What is checked holds where an access is about to be made. -/
theorem checked_next (P : Outline O K) {chk : Nat → Λ → σ → Prop}
    (hcode : ∀ {t op s s'}, P.inv s → K.atCall t op s → O.enter t op s = some s' → ∃ Q, Prog.wpc (P.ctx t) (chk t) Q (O.code t op) s')
    (hinit : ∀ m, init m → P.inv m) (h : O.Reach K init c) {l : Λ} (hnext : c.next t = some l)
    (hok : K.atStep l c.mem) : chk t l c.mem := by
  unfold Cfg.next at hnext
  split at hnext
  · next op st l' upd n ht =>
    injection hnext with hnext
    subst hnext
    obtain ⟨Q, hQ⟩ := P.checked hcode hinit h t _ ht
    exact (hQ c.mem (P.rely_refl t c.mem) (P.sound hinit h).mem_inv hok).1
  · cases hnext

/-- A preorder that contains every guarantee relates any memory of the trail
to any later one. -/
theorem Holds.evolves (h : P.Holds c) {E : σ → σ → Prop} (hrefl : ∀ s, E s s)
    (htrans : ∀ {a b d}, P.inv a → P.inv b → P.inv d → E a b → E b d → E a d)
    (hE : ∀ {t a b}, P.inv a → P.inv b → P.guar t a b → E a b) {i j : Nat} {a b : σ} (hij : i ≤ j)
    (hi : c.trail[i]? = some a) (hj : c.trail[j]? = some b) : E a b := by
  obtain ⟨hil, rfl⟩ := List.getElem?_eq_some_iff.mp hi
  obtain ⟨hjl, rfl⟩ := List.getElem?_eq_some_iff.mp hj
  clear hi hj
  induction j, hij using Nat.le_induction with
  | base => exact hrefl _
  | succ k hk ih =>
    have hkl : k < c.trail.length := by omega
    obtain ⟨t, hg⟩ := List.isChain_iff_getElem.mp h.chain k hjl
    have hk' := h.inv _ (List.getElem_mem hkl)
    have hj' := h.inv _ (List.getElem_mem hjl)
    exact htrans (h.inv _ (List.getElem_mem hil)) hk' hj' (ih hkl) (hE hk' hj' hg)

end Outline

end ShmPcc
