import ShmPcc.Lib.Machine

/-!
# Histories beside a machine

A statement about what happened in a run, and not only about where the run has got,
needs a record of it. `record` keeps one beside the shared state of a machine: each step
makes a new entry from what the thread did. The record is not read by the machine, so
`Reach.forget` gives back a run of the machine itself, and with it everything known about
its runs. `Reach.recorded` is the induction for an invariant that relates the two.
-/

namespace ShmPcc

variable {σ L Op H : Type}

/-- The system without its record. -/
def Sys.forget (s : Sys (σ × H) L) : Sys σ L := ⟨s.mem.1, s.loc⟩

namespace Machine

/-- `f t l m l'` is the entry for a step of thread `t` from `l` to `l'` in state `m`. -/
def record (M : Machine σ L Op) (f : Nat → L → σ → L → H → H) : Machine (σ × H) L Op where
  call t op l m := (M.call t op l m.1).map fun x => (x.1, x.2, f t l m.1 x.1 m.2)
  run t l m := (M.run t l m.1).map fun x => (x.1, x.2, f t l m.1 x.1 m.2)

variable {M : Machine σ L Op} {f : Nat → L → σ → L → H → H} {K : Sys σ L → Act Op → Prop}
  {init : Sys (σ × H) L → Prop} {init₀ : Sys σ L → Prop}

variable {s : Sys (σ × H) L}

theorem act_record {a : Act Op} {l : L} {m : σ × H} (h : (M.record f).act s a = some (l, m)) :
    M.act s.forget a = some (l, m.1) ∧
      m.2 = f a.thread (s.loc a.thread) s.mem.1 l s.mem.2 := by
  cases a with
  | call t op | run t =>
    obtain ⟨x, hx, heq⟩ := Option.map_eq_some_iff.mp h
    cases heq
    exact ⟨hx, rfl⟩

/-- A run with its record forgotten is a run. -/
theorem Reach.forget (hinit : ∀ s, init s → init₀ s.forget)
    (h : (M.record f).Reach (fun s a => K s.forget a) init s) : M.Reach K init₀ s.forget := by
  induction h with
  | init hs => exact .init (hinit _ hs)
  | @step s s' a _ ha hs ih =>
    obtain ⟨⟨l, m⟩, hact, rfl⟩ := Option.map_eq_some_iff.mp hs
    refine ih.step a ha ?_
    rw [Machine.step, (act_record hact).1]
    rfl

/-- What holds of the record and the system at first, and is kept by steps of reachable
systems, holds in every run. -/
theorem Reach.recorded {I : Sys σ L → H → Prop}
    (hinit : ∀ s, init s → init₀ s.forget ∧ I s.forget s.mem.2)
    (hstep : ∀ s a l m x, M.Reach K init₀ s → K s a → M.act s a = some (l, m) → I s x → I ⟨m, Function.update s.loc a.thread l⟩ (f a.thread (s.loc a.thread) s.mem l x))
    (h : (M.record f).Reach (fun s a => K s.forget a) init s) : I s.forget s.mem.2 := by
  induction h with
  | init hs => exact (hinit _ hs).2
  | @step s s' a hr ha hs ih =>
    obtain ⟨⟨l, m⟩, hact, rfl⟩ := Option.map_eq_some_iff.mp hs
    obtain ⟨hact, hm⟩ := act_record hact
    have hnext := hstep s.forget a l m.1 s.mem.2 (hr.forget fun s hs => (hinit s hs).1) ha hact ih
    rw [show (Sys.mk m (Function.update s.loc a.thread l) : Sys (σ × H) L).mem.2 = _ from hm]
    exact hnext

end Machine

/-- What is read in the order of a history stays in that order. -/
theorem prefix_concat_of_getElem? {α : Type} {l h : List α} {x : α} (hl : l <+: h)
    (hx : h[l.length]? = some x) : l ++ [x] <+: h := by
  obtain ⟨hlt, hget⟩ := List.getElem?_eq_some_iff.mp hx
  rw [List.prefix_iff_eq_take.mp hl, ← hget, List.take_append_getElem]
  exact List.take_prefix ..

end ShmPcc
