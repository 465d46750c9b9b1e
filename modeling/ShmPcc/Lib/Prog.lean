import Mathlib

/-!
# Threads as sequences of atomic actions

A thread of shared-memory code is, to everybody else, the sequence of its
atomic accesses. `Prog` keeps exactly that: each `step` reads the shared state
it finds, replaces it by `upd`, and goes on as `next` says, both computed from
the state before the access. A load, a store and a compare-exchange are each
one `step`; whatever happens between two of them is private to the thread and
does not show. `halt` is a thread that never takes another step, which is what
a failed assertion, a crash and an exhausted retry budget have in common.

The tree is well-founded, so a program is run alone by recursion on it
(`exec`) and reasoned about under interference by recursion on it (`wp`).
Every access carries a label, the program point it stands at; the labels are
what a condition on runs ("this branch is not taken while...") talks about.

`wp` is rely-guarantee reasoning read as a weakest precondition. Before each
access the other threads may move the state along `rely`; the access itself
has to keep the invariant and move the state along `guar`. The program under
`wp` never mentions the other threads again, and a fact about the state is
carried past an access exactly when `rely` preserves it.
-/

namespace ShmPcc

/-- A thread's remaining atomic accesses to a shared state `σ`, labelled by
program points `Λ`, ending in a result of type `α`. -/
inductive Prog (Λ σ α : Type) : Type where
  | ret (a : α) : Prog Λ σ α
  | halt : Prog Λ σ α
  | step (l : Λ) (upd : σ → σ) (next : σ → Prog Λ σ α) : Prog Λ σ α

namespace Prog

variable {Λ σ α β : Type}

/-- Sequential composition: the second program starts where the first one
returned. -/
def bind : Prog Λ σ α → (α → Prog Λ σ β) → Prog Λ σ β
  | ret a, k => k a
  | halt, _ => halt
  | step l u n, k => step l u fun s => bind (n s) k

instance : Monad (Prog Λ σ) where
  pure := ret
  bind := bind

@[simp] theorem pure_eq (a : α) : (pure a : Prog Λ σ α) = ret a := rfl

@[simp] theorem ret_bind (a : α) (k : α → Prog Λ σ β) : (ret a >>= k) = k a := rfl

/-- An atomic load: the state stays as it is. -/
def read (l : Λ) (f : σ → α) : Prog Λ σ α :=
  step l id fun s => ret (f s)

/-- An atomic store. -/
def write (l : Λ) (u : σ → σ) : Prog Λ σ Unit :=
  step l u fun _ => ret ()

/-- An atomic read-modify-write, answering from the state before it. -/
def rmw (l : Λ) (u : σ → σ) (f : σ → α) : Prog Λ σ α :=
  step l u fun s => ret (f s)

/-! ## Running alone -/

/-- The result of a program that no other thread interferes with, with the
state it leaves; `none` where it halts. -/
def exec : Prog Λ σ α → σ → Option (α × σ)
  | ret a, s => some (a, s)
  | halt, _ => none
  | step _ u n, s => exec (n s) (u s)

@[simp] theorem exec_ret (a : α) (s : σ) : (ret a : Prog Λ σ α).exec s = some (a, s) := rfl

@[simp] theorem exec_halt (s : σ) : (halt : Prog Λ σ α).exec s = none := rfl

@[simp] theorem exec_step (l : Λ) (u : σ → σ) (n : σ → Prog Λ σ α) (s : σ) :
    (step l u n).exec s = (n s).exec (u s) := rfl

@[simp] theorem exec_read (l : Λ) (f : σ → α) (s : σ) : (read l f).exec s = some (f s, s) := rfl

@[simp] theorem exec_rmw (l : Λ) (u : σ → σ) (f : σ → α) (s : σ) :
    (rmw l u f).exec s = some (f s, u s) := rfl

@[simp] theorem exec_bind (p : Prog Λ σ α) (k : α → Prog Λ σ β) (s : σ) :
    (p >>= k).exec s = (p.exec s).bind fun r => (k r.1).exec r.2 := by
  induction p generalizing s with
  | ret a => rfl
  | halt => rfl
  | step l u n ih =>
    exact ih s (u s)

/-- The accesses that a program makes when it runs alone. -/
def labels : Prog Λ σ α → σ → List Λ
  | ret _, _ => []
  | halt, _ => []
  | step l u n, s => l :: labels (n s) (u s)

/-- The total counterpart of `exec`: run alone, the program returns, and what
it returns satisfies `Q`. -/
def runs (Q : α → σ → Prop) : Prog Λ σ α → σ → Prop
  | ret a, s => Q a s
  | halt, _ => False
  | step _ u n, s => runs Q (n s) (u s)

variable {p : Prog Λ σ α} {Q : α → σ → Prop} {s : σ}

theorem runs_iff_exec : p.runs Q s ↔ ∃ a s', p.exec s = some (a, s') ∧ Q a s' := by
  induction p generalizing s with
  | ret a =>
    refine ⟨fun h => ⟨a, s, rfl, h⟩, ?_⟩
    rintro ⟨b, s', hx, h⟩
    injection hx with hx
    injection hx with h1 h2
    subst h1 h2
    exact h
  | halt =>
    refine ⟨False.elim, ?_⟩
    rintro ⟨a, s', hx, _⟩
    cases hx
  | step l u n ih => exact ih s

@[simp] theorem runs_ret {a : α} : (ret a : Prog Λ σ α).runs Q s ↔ Q a s := Iff.rfl

variable {l : Λ} {u : σ → σ}

@[simp] theorem runs_step {n : σ → Prog Λ σ α} :
    (step l u n).runs Q s ↔ (n s).runs Q (u s) := Iff.rfl

variable {f : σ → α}

@[simp] theorem runs_read : (read l f).runs Q s ↔ Q (f s) s := Iff.rfl

@[simp] theorem runs_write {Q : Unit → σ → Prop} : (write l u).runs Q s ↔ Q () (u s) := Iff.rfl

@[simp] theorem runs_rmw : (rmw l u f).runs Q s ↔ Q (f s) (u s) := Iff.rfl

@[simp] theorem runs_bind {Q : β → σ → Prop} {k : α → Prog Λ σ β} :
    (p >>= k).runs Q s ↔ p.runs (fun a s' => (k a).runs Q s') s := by
  induction p generalizing s with
  | ret a => exact Iff.rfl
  | halt => exact Iff.rfl
  | step l u n ih => exact ih s

theorem runs_mono {Q' : α → σ → Prop} (hQ : ∀ a s, Q a s → Q' a s) (h : p.runs Q s) :
    p.runs Q' s := by
  induction p generalizing s with
  | ret a => exact hQ a s h
  | halt => exact h
  | step l u n ih => exact ih s h

/-- The partial counterpart of `exec`: run alone, the program halts, or what it
returns satisfies `Q`. -/
def ends (Q : α → σ → Prop) : Prog Λ σ α → σ → Prop
  | ret a, s => Q a s
  | halt, _ => True
  | step _ u n, s => ends Q (n s) (u s)

@[simp] theorem ends_read : (read l f).ends Q s ↔ Q (f s) s := Iff.rfl

@[simp] theorem ends_write {Q : Unit → σ → Prop} : (write l u).ends Q s ↔ Q () (u s) := Iff.rfl

@[simp] theorem ends_rmw : (rmw l u f).ends Q s ↔ Q (f s) (u s) := Iff.rfl

theorem ends_bind {Q : β → σ → Prop} {k : α → Prog Λ σ β} :
    (p >>= k).ends Q s ↔ p.ends (fun a s' => (k a).ends Q s') s := by
  induction p generalizing s with
  | ret a => exact Iff.rfl
  | halt => exact Iff.rfl
  | step l u n ih => exact ih s

theorem ends_mono {Q' : α → σ → Prop} (hQ : ∀ a s, Q a s → Q' a s) (h : p.ends Q s) :
    p.ends Q' s := by
  induction p generalizing s with
  | ret a => exact hQ a s h
  | halt => trivial
  | step l u n ih => exact ih s h

theorem runs_and_ends {P : α → σ → Prop} (hp : p.runs P s) (hq : p.ends Q s) :
    p.runs (fun a s' => P a s' ∧ Q a s') s := by
  induction p generalizing s with
  | ret a => exact ⟨hp, hq⟩
  | halt => exact hp
  | step l u n ih => exact ih s hp hq

theorem ends_of_runs (h : p.runs Q s) : p.ends Q s := by
  induction p generalizing s with
  | ret a => exact h
  | halt => trivial
  | step l u n ih => exact ih s h

/-- A program has one result: what is known of it decides what is asked. -/
theorem runs_congr {P : α → σ → Prop} {C : Prop} (h : p.runs P s)
    (hPQ : ∀ a s', P a s' → (Q a s' ↔ C)) : p.runs Q s ↔ C := by
  induction p generalizing s with
  | ret a => exact hPQ a s h
  | halt => exact h.elim
  | step l u n ih => exact ih s h

end Prog

/-! ## Interference -/

/-- What a thread's proof assumes and owes: the invariant of the shared state,
the moves of the others (`rely`), its own moves (`guar`), and the condition
under which an access at a label is considered at all. -/
structure Ctx (Λ σ : Type) where
  inv : σ → Prop
  rely : σ → σ → Prop
  guar : σ → σ → Prop
  ok : Λ → σ → Prop
  rely_refl : ∀ s, rely s s
  rely_trans : ∀ {s₁ s₂ s₃}, inv s₁ → inv s₂ → inv s₃ →
    rely s₁ s₂ → rely s₂ s₃ → rely s₁ s₃
  guar_refl : ∀ s, guar s s

/-- An assertion that the others keep. -/
def Ctx.Stable {Λ σ : Type} (C : Ctx Λ σ) (A : σ → Prop) : Prop :=
  ∀ s s', C.rely s s' → A s → A s'

/-- The same context with another guarantee. -/
def Ctx.guarBy {Λ σ : Type} (C : Ctx Λ σ) (g : σ → σ → Prop) (hg : ∀ s, g s s) : Ctx Λ σ :=
  { C with guar := g, guar_refl := hg }

/-- The same context for a program that changes nothing. -/
def Ctx.quiet {Λ σ : Type} (C : Ctx Λ σ) : Ctx Λ σ := C.guarBy Eq fun _ => rfl

namespace Prog

variable {Λ σ α β : Type} {C : Ctx Λ σ}

/-- From `s`, whatever the others do in between, every access keeps the
invariant and the guarantee, and a returned value satisfies `Q`. -/
def wp (C : Ctx Λ σ) (Q : α → σ → Prop) : Prog Λ σ α → σ → Prop
  | ret a, s => ∀ s', C.rely s s' → C.inv s' → Q a s'
  | halt, _ => True
  | step l u n, s => ∀ s', C.rely s s' → C.inv s' → C.ok l s' →
      C.inv (u s') ∧ C.guar s' (u s') ∧ wp C Q (n s') (u s')

variable {p : Prog Λ σ α} {Q : α → σ → Prop} {s : σ} {chk : Λ → σ → Prop}

/-- `wp`, where every access meets its check: `chk` says what holds in the state in which an
access at a label is made. -/
def wpc (C : Ctx Λ σ) (chk : Λ → σ → Prop) (Q : α → σ → Prop) : Prog Λ σ α → σ → Prop
  | ret a, s => ∀ s', C.rely s s' → C.inv s' → Q a s'
  | halt, _ => True
  | step l u n, s => ∀ s', C.rely s s' → C.inv s' → C.ok l s' →
      chk l s' ∧ C.inv (u s') ∧ C.guar s' (u s') ∧ wpc C chk Q (n s') (u s')

theorem wp_iff_wpc : wp C Q p s ↔ wpc C (fun _ _ => True) Q p s := by
  induction p generalizing s with
  | ret a => rfl
  | halt => rfl
  | step l u n ih => simp only [wp, wpc, true_and, ih]

/-- Another guarantee, other checks and another postcondition, where something that both
sides keep gives them. -/
theorem wpc_transfer {g : σ → σ → Prop} (hg : ∀ s, g s s) {chk' : Λ → σ → Prop} {Q' : α → σ → Prop}
    {J : σ → Prop} (hrely : ∀ {s s'}, C.rely s s' → C.inv s' → J s → J s')
    (hstep : ∀ {l s s'}, C.inv s → C.inv s' → chk l s → C.guar s s' → J s → chk' l s ∧ g s s' ∧ J s')
    (hQ : ∀ a s, C.inv s → J s → Q a s → Q' a s) (h0 : J s) (h : wpc C chk Q p s) :
    wpc (C.guarBy g hg) chk' Q' p s := by
  induction p generalizing s with
  | ret a => exact fun s' hr hi => hQ a s' hi (hrely hr hi h0) (h s' hr hi)
  | halt => trivial
  | step l u n ih =>
    intro s' hr hi hok
    obtain ⟨hc, h1, h2, h3⟩ := h s' hr hi hok
    obtain ⟨hc', hg', hJ⟩ := hstep hi h1 hc h2 (hrely hr hi h0)
    exact ⟨hc', h1, hg', ih s' hJ h3⟩

theorem wp_of_wpc (h : wpc C chk Q p s) : wp C Q p s :=
  wp_iff_wpc.mpr (wpc_transfer C.guar_refl (J := fun _ => True)
    (fun _ _ h => h) (fun _ _ _ hg h => ⟨trivial, hg, h⟩) (fun _ _ _ _ h => h) trivial h)

/-- A proof survives what the others do. -/
theorem wpc_rely {s' : σ} (h : wpc C chk Q p s) (hs : C.inv s) (hs' : C.inv s') (hr : C.rely s s') :
    wpc C chk Q p s' := by
  cases p with
  | ret a => exact fun s'' hr' hi => h s'' (C.rely_trans hs hs' hi hr hr') hi
  | halt => trivial
  | step l u n => exact fun s'' hr' hi hok => h s'' (C.rely_trans hs hs' hi hr hr') hi hok

theorem wp_rely {s' : σ} (h : wp C Q p s) (hs : C.inv s) (hs' : C.inv s') (hr : C.rely s s') :
    wp C Q p s' :=
  wp_of_wpc (wpc_rely (wp_iff_wpc.mp h) hs hs' hr)

theorem wpc_mono {Q' : α → σ → Prop} (hQ : ∀ a s, C.inv s → Q a s → Q' a s) (h : wpc C chk Q p s) :
    wpc C chk Q' p s :=
  wpc_transfer C.guar_refl (J := fun _ => True) (fun _ _ h => h)
    (fun _ _ hc hg h => ⟨hc, hg, h⟩) (fun a s hi _ h => hQ a s hi h) trivial h

theorem wp_mono {Q' : α → σ → Prop} (hQ : ∀ a s, C.inv s → Q a s → Q' a s) (h : wp C Q p s) :
    wp C Q' p s :=
  wp_of_wpc (wpc_mono hQ (wp_iff_wpc.mp h))

theorem wp_of_guarBy {g : σ → σ → Prop} (hg : ∀ s, g s s)
    (hgg : ∀ {s s'}, C.inv s → C.inv s' → g s s' → C.guar s s') (h : wp (C.guarBy g hg) Q p s) :
    wp C Q p s :=
  wp_of_wpc (wpc_transfer (C := C.guarBy g hg) C.guar_refl (J := fun _ => True)
    (fun _ _ h => h) (fun hi hi' hc hg h => ⟨hc, hgg hi hi' hg, h⟩) (fun _ _ _ _ h => h) trivial
    (wp_iff_wpc.mp h))

/-- A relation that contains the moves of both sides holds between the state a
program starts in and the one it returns in. -/
theorem wp_moved {E : σ → σ → Prop} (hE : ∀ s, E s s)
    (htrans : ∀ {a b d}, C.inv a → C.inv b → C.inv d → E a b → E b d → E a d)
    (hrely : ∀ {a b}, C.rely a b → E a b) (hguar : ∀ {a b}, C.guar a b → E a b) (hs : C.inv s)
    (h : wp C Q p s) : wp C (fun a s' => Q a s' ∧ E s s') p s := by
  refine wp_iff_wpc.mpr (wpc_transfer C.guar_refl (J := fun s' => C.inv s' ∧ E s s')
    (fun hr hi hJ => ⟨hi, htrans hs hJ.1 hi hJ.2 (hrely hr)⟩) (fun hi hi' hc hg hJ => ?_)
    (fun _ _ _ hJ h => ⟨h, hJ.2⟩) ⟨hs, hE s⟩ (wp_iff_wpc.mp h))
  exact ⟨hc, hg, hi', htrans hs hi hi' hJ.2 (hguar hg)⟩

variable {k : α → Prog Λ σ β}

/-- Composition: what the first program leaves behind is enough for the
second. The invariant is at hand at the seam. -/
theorem wpc_bind {Q : β → σ → Prop} (h : wpc C chk (fun a s' => wpc C chk Q (k a) s') p s) :
    wpc C chk Q (p >>= k) s := by
  induction p generalizing s with
  | ret a =>
    rw [ret_bind]
    cases hk : k a with
    | ret b =>
      intro s' hr hi
      have h' := h s' hr hi
      simp only [hk] at h'
      exact h' s' (C.rely_refl s') hi
    | halt => trivial
    | step l u n =>
      intro s' hr hi hok
      have h' := h s' hr hi
      simp only [hk] at h'
      exact h' s' (C.rely_refl s') hi hok
  | halt => trivial
  | step l u n ih =>
    intro s' hr hi hok
    obtain ⟨h0, h1, h2, h3⟩ := h s' hr hi hok
    exact ⟨h0, h1, h2, ih s' h3⟩

theorem wp_bind {Q : β → σ → Prop} (h : wp C (fun a s' => wp C Q (k a) s') p s) :
    wp C Q (p >>= k) s :=
  wp_of_wpc (wpc_bind (wpc_mono (fun _ _ _ => wp_iff_wpc.mp) (wp_iff_wpc.mp h)))

theorem wp_map {Q : β → σ → Prop} {f : α → β} (h : wp C (fun a => Q (f a)) p s) :
    wp C Q (p >>= fun a => ret (f a)) s := by
  induction p generalizing s with
  | ret a => exact h
  | halt => trivial
  | step l u n ih =>
    intro s' hr hi hok
    obtain ⟨h1, h2, h3⟩ := h s' hr hi hok
    exact ⟨h1, h2, ih s' h3⟩

theorem wp_ret {a : α} (h : ∀ s', C.rely s s' → C.inv s' → Q a s') : wp C Q (ret a) s := h

theorem wp_read {Q : β → σ → Prop} {l : Λ} {f : σ → α}
    (h : ∀ s', C.rely s s' → C.inv s' → C.ok l s' → wp C Q (k (f s')) s') :
    wp C Q (read l f >>= k) s :=
  fun s' hr hi hok => ⟨hi, C.guar_refl s', h s' hr hi hok⟩

variable {u : σ → σ}

theorem wp_rmw {Q : β → σ → Prop} {l : Λ} {f : σ → α}
    (h : ∀ s', C.rely s s' → C.inv s' → C.ok l s' → C.inv (u s') ∧ C.guar s' (u s') ∧ wp C Q (k (f s')) (u s')) :
    wp C Q (rmw l u f >>= k) s := h

theorem wp_write {Q : β → σ → Prop} {l : Λ} {k : Unit → Prog Λ σ β}
    (h : ∀ s', C.rely s s' → C.inv s' → C.ok l s' → C.inv (u s') ∧ C.guar s' (u s') ∧ wp C Q (k ()) (u s')) :
    wp C Q (write l u >>= k) s := h

/-! ### Assertions that the others keep -/

section Stable

variable {A : σ → Prop}

variable {Q : α → σ → Prop} {s : σ}

theorem wp_ret_of {a : α} (hA : C.Stable A) (h0 : A s) (h : ∀ s', C.inv s' → A s' → Q a s') :
    wp C Q (ret a) s :=
  fun s' hr hi => h s' hi (hA _ _ hr h0)

theorem wp_step_of {l : Λ} {u : σ → σ} {n : σ → Prog Λ σ α} (hA : C.Stable A) (h0 : A s)
    (h : ∀ s', C.inv s' → A s' → C.ok l s' → C.inv (u s') ∧ C.guar s' (u s') ∧ wp C Q (n s') (u s')) :
    wp C Q (step l u n) s :=
  fun s' hr hi hok => h s' hi (hA _ _ hr h0) hok

theorem wp_read_of {Q : β → σ → Prop} {l : Λ} {f : σ → α} {k : α → Prog Λ σ β}
    (hA : C.Stable A) (h0 : A s) (h : ∀ s', C.inv s' → A s' → wp C Q (k (f s')) s') : wp C Q (read l f >>= k) s :=
  wp_read fun s' hr hi _ => h s' hi (hA _ _ hr h0)

variable {p : Prog Λ σ α}

/-- What the others and the program's own moves keep is kept by the program. -/
theorem wp_frame (hA : C.Stable A) (hguar : ∀ {s s'}, C.inv s → C.guar s s' → A s → A s') (h0 : A s)
    (h : wp C Q p s) : wp C (fun a s' => Q a s' ∧ A s') p s :=
  wp_of_wpc (wpc_transfer C.guar_refl (fun hr _ => hA _ _ hr)
    (fun hi _ hc hg h => ⟨hc, hg, hguar hi hg h⟩) (fun _ _ _ hA h => ⟨h, hA⟩) h0 (wp_iff_wpc.mp h))

/-- A program that changes nothing keeps what the others keep. -/
theorem wp_quiet (hA : C.Stable A) (h0 : A s) (h : wp C.quiet Q p s) :
    wp C (fun a s' => Q a s' ∧ A s') p s := by
  refine wp_of_guarBy (fun _ => rfl) (fun _ _ he => he ▸ C.guar_refl _) ?_
  exact wp_frame hA (fun _ he h => he ▸ h) h0 h

/-- Run alone from a state of the invariant, a program that returns at all
returns what its proof says. -/
theorem runs_of_wp (hok : ∀ l s, C.ok l s) {R : α → σ → Prop} (hs : C.inv s) (h : wp C Q p s)
    (hr : p.runs R s) : p.runs (fun a s' => R a s' ∧ Q a s') s := by
  induction p generalizing s with
  | ret a => exact ⟨hr, h s (C.rely_refl s) hs⟩
  | halt => exact hr
  | step l u n ih =>
    obtain ⟨hs', _, h'⟩ := h s (C.rely_refl s) hs (hok l s)
    exact ih s hs' h' hr

end Stable

variable {A : σ → Prop}

theorem wpc_ret_of {a : α} (hA : C.Stable A) (h0 : A s) (h : ∀ s', C.inv s' → A s' → Q a s') :
    wpc C chk Q (ret a) s :=
  fun s' hr hi => h s' hi (hA _ _ hr h0)

theorem wpc_step_of {l : Λ} {n : σ → Prog Λ σ α} (hA : C.Stable A) (h0 : A s)
    (h : ∀ s', C.inv s' → A s' → C.ok l s' → chk l s' ∧ C.inv (u s') ∧ C.guar s' (u s') ∧ wpc C chk Q (n s') (u s')) :
    wpc C chk Q (step l u n) s :=
  fun s' hr hi hok => h s' hi (hA _ _ hr h0) hok

/-! ### Programs all of whose accesses are alike -/

/-- Every access of the program moves the state along `R`. -/
def Within (R : Λ → σ → σ → Prop) : Prog Λ σ α → Prop
  | ret _ => True
  | halt => True
  | step l u n => ∀ s, R l s (u s) ∧ (n s).Within R

variable {R : Λ → σ → σ → Prop}

theorem Within.bind (hp : p.Within R) (hk : ∀ a, (k a).Within R) : (p >>= k).Within R := by
  induction p with
  | ret a => exact hk a
  | halt => trivial
  | step l u n ih => exact fun s => ⟨(hp s).1, ih s (hp s).2⟩

theorem Within.mono (hp : p.Within R) {R' : Λ → σ → σ → Prop}
    (hR : ∀ l s s', R l s s' → R' l s s') : p.Within R' := by
  induction p with
  | ret a => trivial
  | halt => trivial
  | step l u n ih => exact fun s => ⟨hR _ _ _ (hp s).1, ih s (hp s).2⟩

/-- Such a program keeps what the others and such accesses keep. -/
theorem wpc_within (hA : C.Stable A)
    (hR : ∀ {l s s'}, C.inv s → R l s s' → chk l s ∧ C.inv s' ∧ C.guar s s')
    (hRA : ∀ {l s s'}, C.inv s → R l s s' → A s → A s') (hp : p.Within R) (h0 : A s) :
    wpc C chk (fun _ => A) p s := by
  induction p generalizing s with
  | ret a => exact fun s' hr _ => hA _ _ hr h0
  | halt => trivial
  | step l u n ih =>
    intro s' hr hi _
    obtain ⟨hu, hn⟩ := hp s'
    obtain ⟨hc, hi', hg⟩ := hR hi hu
    exact ⟨hc, hi', hg, ih s' hn (hRA hi hu (hA _ _ hr h0))⟩

/-- Whatever the states are, what the program returns satisfies `P`. -/
def Returns (P : α → Prop) : Prog Λ σ α → Prop
  | ret a => P a
  | halt => True
  | step _ _ n => ∀ s, (n s).Returns P

variable {P : α → Prop}

theorem Returns.bind {P' : β → Prop} (hp : p.Returns P) (hk : ∀ a, P a → (k a).Returns P') :
    (p >>= k).Returns P' := by
  induction p with
  | ret a => exact hk a hp
  | halt => trivial
  | step l u n ih => exact fun s => ih s (hp s)

theorem returns_any : p.Returns fun _ => True := by
  induction p with
  | ret a => trivial
  | halt => trivial
  | step l u n ih => exact fun s => ih s

/-- Every access satisfies `R` and every result `P`, whatever is read. -/
def Meets (R : Λ → σ → σ → Prop) (P : α → Prop) : Prog Λ σ α → Prop
  | ret a => P a
  | halt => True
  | step l u n => ∀ s, R l s (u s) ∧ (n s).Meets R P

theorem Meets.bind {P' : β → Prop} (hp : p.Meets R P) (hk : ∀ a, P a → (k a).Meets R P') :
    (p >>= k).Meets R P' := by
  induction p with
  | ret a => exact hk a hp
  | halt => trivial
  | step l u n ih => exact fun s => ⟨(hp s).1, ih s (hp s).2⟩

theorem Meets.mono {P' : α → Prop} (hp : p.Meets R P) (hP : ∀ a, P a → P' a) : p.Meets R P' := by
  induction p with
  | ret a => exact hP a hp
  | halt => trivial
  | step l u n ih => exact fun s => ⟨(hp s).1, ih s (hp s).2⟩

theorem Meets.within (hp : p.Meets R P) : p.Within R := by
  induction p with
  | ret a => trivial
  | halt => trivial
  | step l u n ih => exact fun s => ⟨(hp s).1, ih s (hp s).2⟩

theorem Within.meets (hp : p.Within R) : p.Meets R fun _ => True := by
  induction p with
  | ret a => trivial
  | halt => trivial
  | step l u n ih => exact fun s => ⟨(hp s).1, ih s (hp s).2⟩

theorem wpc_meets (hp : p.Meets R P) (h : wpc C chk Q p s) :
    wpc C chk (fun a s' => P a ∧ Q a s') p s := by
  induction p generalizing s with
  | ret a => exact fun s' hr hi => ⟨hp, h s' hr hi⟩
  | halt => trivial
  | step l u n ih =>
    intro s' hr hi hok
    obtain ⟨h0, h1, h2, h3⟩ := h s' hr hi hok
    exact ⟨h0, h1, h2, ih s' (hp s').2 h3⟩

/-- Run alone, such a program keeps what its accesses keep. -/
theorem Meets.ends (hR : ∀ l s s', R l s s' → A s → A s') (hp : p.Meets R P) (h0 : A s) :
    p.ends (fun a s' => P a ∧ A s') s := by
  induction p generalizing s with
  | ret a => exact ⟨hp, h0⟩
  | halt => trivial
  | step l u n ih => exact ih s (hp s).2 (hR _ _ _ (hp s).1 h0)

/-! ## Part of a larger state -/

variable {τ : Type}

/-- The program where its state is a part of `τ` that `get` reads and `set` replaces. -/
def zoom (get : τ → σ) (set : σ → τ → τ) : Prog Λ σ α → Prog Λ τ α
  | ret a => ret a
  | halt => halt
  | step l u n => step l (fun s => set (u (get s)) s) fun s => zoom get set (n (get s))

theorem exec_zoom {get : τ → σ} {set : σ → τ → τ} (hget : ∀ x s, get (set x s) = x)
    (hset : ∀ s, set (get s) s = s) (hsets : ∀ x y s, set x (set y s) = set x s)
    (p : Prog Λ σ α) (s : τ) :
    (p.zoom get set).exec s = (p.exec (get s)).map fun r => (r.1, set r.2 s) := by
  induction p generalizing s with
  | ret a => simp [zoom, hset]
  | halt => rfl
  | step l u n ih =>
    rw [zoom, exec_step, exec_step, ih, hget]
    simp only [hsets]

theorem exec_returns (hp : p.Returns P) {s' : σ} {a : α} (h : p.exec s = some (a, s')) : P a := by
  induction p generalizing s with
  | ret b =>
    cases h
    exact hp
  | halt => cases h
  | step l u n ih => exact ih s (hp s) h

end Prog

end ShmPcc
