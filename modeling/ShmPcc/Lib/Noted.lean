import ShmPcc.Lib.Pool

/-!
# Objects that take notes

Auxiliary variables for runs. The notes of an object are updated at every access, from the
thread and the label of the access and the memory it is made in, and the code does not read
them: a run with notes is a run, together with something that can be said about its past.
Restrictions on runs and assertions of a proof may speak about the notes.

A proof of a program carries over to the program with notes (`Prog.wp_noted`), and a run
with some notes is a run with more of them as well (`Obj.Reach.renote`), so that a proof may
take notes that the restriction of a statement knows nothing about.
-/

namespace ShmPcc

open Function

variable {Λ σ γ γ' Op Ret α β : Type}

namespace Prog

/-- The program of thread `t`, with notes. -/
def noted (note : Nat → Λ → σ → γ → γ) (t : Nat) : Prog Λ σ α → Prog (Nat × Λ) (σ × γ) α
  | ret a => ret a
  | halt => halt
  | step l u n => step (t, l) (fun x => (u x.1, note t l x.1 x.2)) fun x => (n x.1).noted note t

section

variable {note : Nat → Λ → σ → γ → γ} {t : Nat}

theorem noted_bind (p : Prog Λ σ α) (k : α → Prog Λ σ β) :
    (p >>= k).noted note t = p.noted note t >>= fun a => (k a).noted note t := by
  induction p with
  | ret a => rfl
  | halt => rfl
  | step l u n ih => exact congrArg (step (t, l) _) (funext fun x => ih x.1)

/-- A proof of the program is one of the program with notes, in a context that only adds
something to the invariant and the guarantee, and to what is relied on. -/
theorem wp_noted {C : Ctx Λ σ} {D : Ctx (Nat × Λ) (σ × γ)} {A : σ × γ → Prop}
    (hinv : ∀ x, D.inv x → C.inv x.1) (hrely : ∀ x y, D.rely x y → C.rely x.1 y.1)
    (hok : ∀ l x, D.ok (t, l) x → C.ok l x.1) (hA : D.Stable A)
    (hstep : ∀ l x m, D.inv x → A x → C.inv m → C.guar x.1 m →
      D.inv (m, note t l x.1 x.2) ∧ D.guar x (m, note t l x.1 x.2) ∧ A (m, note t l x.1 x.2))
    {Q : α → σ → Prop} {p : Prog Λ σ α} {x : σ × γ} (h0 : A x) (h : wp C Q p x.1) :
    wp D (fun a y => Q a y.1 ∧ A y) (p.noted note t) x := by
  induction p generalizing x with
  | ret a => exact fun y hr hi => ⟨h y.1 (hrely x y hr) (hinv y hi), hA x y hr h0⟩
  | halt => trivial
  | step l u n ih =>
    intro y hr hi hy
    obtain ⟨h1, h2, h3⟩ := h y.1 (hrely x y hr) (hinv y hi) (hok l y hy)
    obtain ⟨hi', hg, ha⟩ := hstep l y (u y.1) hi (hA x y hr h0) h1 h2
    exact ⟨hi', hg, ih y.1 ha h3⟩

end

/-- Two proofs of one program are a proof of both their conclusions. -/
theorem wp_and {C C₁ C₂ : Ctx Λ σ} {Q₁ Q₂ : α → σ → Prop} {p : Prog Λ σ α} {s : σ}
    (h₁ : wp C₁ Q₁ p s) (h₂ : wp C₂ Q₂ p s) (hinv : ∀ s, C.inv s → C₁.inv s ∧ C₂.inv s)
    (hrely : ∀ s s', C.rely s s' → C₁.rely s s' ∧ C₂.rely s s')
    (hok : ∀ l s, C.ok l s → C₁.ok l s ∧ C₂.ok l s)
    (hstep : ∀ s s', C.inv s → C₁.inv s' → C₁.guar s s' → C₂.inv s' → C₂.guar s s' →
      C.inv s' ∧ C.guar s s') :
    wp C (fun a s' => Q₁ a s' ∧ Q₂ a s') p s := by
  induction p generalizing s with
  | ret a =>
    intro s' hr hi
    exact ⟨h₁ s' (hrely s s' hr).1 (hinv s' hi).1, h₂ s' (hrely s s' hr).2 (hinv s' hi).2⟩
  | halt => trivial
  | step l u n ih =>
    intro s' hr hi hy
    obtain ⟨hi₁, hg₁, hn₁⟩ := h₁ s' (hrely s s' hr).1 (hinv s' hi).1 (hok l s' hy).1
    obtain ⟨hi₂, hg₂, hn₂⟩ := h₂ s' (hrely s s' hr).2 (hinv s' hi).2 (hok l s' hy).2
    obtain ⟨hi', hg⟩ := hstep s' (u s') hi hi₁ hg₁ hi₂ hg₂
    exact ⟨hi', hg, ih s' hn₁ hn₂⟩

end Prog

namespace Obj

/-- The object with notes. Calls and returns leave them alone. -/
def noted (O : Obj Λ σ Op Ret) (note : Nat → Λ → σ → γ → γ) : Obj (Nat × Λ) (σ × γ) Op Ret where
  code t op := (O.code t op).noted note t
  enter t op x := (O.enter t op x.1).map fun m => (m, x.2)
  leave t op r x := (O.leave t op r x.1, x.2)

section Renote

variable {O : Obj Λ σ Op Ret} {note : Nat → Λ → σ → γ → γ} {note' : Nat → Λ → σ → γ' → γ'}
  {f : γ' → γ}

/-- The same thread, with two kinds of notes. -/
inductive Twins (note : Nat → Λ → σ → γ → γ) (note' : Nat → Λ → σ → γ' → γ') (t : Nat) :
    Option (Active (Nat × Λ) (σ × γ) Op Ret) → Option (Active (Nat × Λ) (σ × γ') Op Ret) → Prop where
  | idle : Twins note note' t none none
  | busy (op : Op) (st : Nat) (p : Prog Λ σ Ret) :
      Twins note note' t (some ⟨op, st, p.noted note t⟩) (some ⟨op, st, p.noted note' t⟩)

/-- The same configuration, with two kinds of notes. -/
structure Renoted (note : Nat → Λ → σ → γ → γ) (note' : Nat → Λ → σ → γ' → γ') (f : γ' → γ)
    (c : Cfg (Nat × Λ) (σ × γ) Op Ret) (d : Cfg (Nat × Λ) (σ × γ') Op Ret) : Prop where
  mem : c.mem = (d.mem.1, f d.mem.2)
  length : c.trail.length = d.trail.length
  thr : ∀ t, Twins note note' t (c.thr t) (d.thr t)
  hist : c.hist = d.hist

variable {d : Cfg (Nat × Λ) (σ × γ') Op Ret} {c : Cfg (Nat × Λ) (σ × γ) Op Ret}

theorem Twins.update (h : ∀ t, Twins note note' t (c.thr t) (d.thr t)) {t : Nat} {a a'}
    (ha : Twins note note' t a a') (u : Nat) :
    Twins note note' u (update c.thr t a u) (update d.thr t a' u) := by
  by_cases hu : u = t
  · subst hu
    rw [update_self, update_self]
    exact ha
  · rw [update_of_ne hu, update_of_ne hu]
    exact h u

/-- An action of the one is an action of the other. -/
theorem Renoted.step (hf : ∀ t l m g, f (note' t l m g) = note t l m (f g))
    {c' : Cfg (Nat × Λ) (σ × γ) Op Ret} (h : Renoted note note' f c d) {a : Act Op}
    (hs : (O.noted note).step c a = some c') :
    ∃ d', (O.noted note').step d a = some d' ∧ Renoted note note' f c' d' := by
  cases a with
  | call t op =>
    simp only [Obj.step] at hs ⊢
    split at hs
    · next hthr henter =>
      injection hs with hs
      subst hs
      obtain ⟨m, hm, rfl⟩ := Option.map_eq_some_iff.mp henter
      have htw := h.thr t
      rw [hthr] at htw
      generalize hd : d.thr t = a' at htw
      cases htw
      have henter' : (O.noted note').enter t op d.mem = some (m, d.mem.2) := by
        rw [h.mem] at hm
        exact Option.map_eq_some_iff.mpr ⟨m, hm, rfl⟩
      rw [henter']
      refine ⟨_, rfl, by rw [h.mem], ?_, ?_, h.hist⟩
      · simp [h.length]
      · rw [h.length]
        exact Twins.update h.thr (.busy op _ (O.code t op))
    · cases hs
  | run t =>
    have htw := h.thr t
    simp only [Obj.step] at hs ⊢
    generalize hc : c.thr t = a at htw hs
    generalize hd : d.thr t = a' at htw
    cases htw with
    | idle => cases hs
    | busy op st p =>
      cases p with
      | halt => cases hs
      | ret r =>
        injection hs with hs
        subst hs
        refine ⟨_, rfl, ?_, ?_, ?_, ?_⟩
        · simp only [Obj.noted, h.mem]
        · simp [h.length]
        · exact Twins.update h.thr .idle
        · rw [h.hist, h.length]
      | step l u n =>
        injection hs with hs
        subst hs
        refine ⟨_, rfl, ?_, ?_, ?_, h.hist⟩
        · simp only [h.mem, hf]
        · simp [h.length]
        · refine Twins.update h.thr ?_
          rw [h.mem]
          exact .busy op st (n d.mem.1)

variable {K : Cond (Nat × Λ) (σ × γ) Op} {K' : Cond (Nat × Λ) (σ × γ') Op}

theorem Renoted.allows (hcall : ∀ t op x, K.atCall t op (x.1, f x.2) → K'.atCall t op x)
    (hstep : ∀ l x, K.atStep l (x.1, f x.2) → K'.atStep l x) (h : Renoted note note' f c d)
    {a : Act Op} (ha : Obj.allows K c a) : Obj.allows K' d a := by
  cases a with
  | call t op =>
    refine hcall t op d.mem ?_
    rw [← h.mem]
    exact ha
  | run t =>
    have htw := h.thr t
    simp only [Obj.allows] at ha ⊢
    generalize c.thr t = a at htw ha
    generalize d.thr t = a' at htw ⊢
    cases htw with
    | idle => trivial
    | busy op st p =>
      cases p with
      | ret r => trivial
      | halt => trivial
      | step l u n =>
        refine hstep (t, l) d.mem ?_
        rw [← h.mem]
        exact ha

/-- A run with notes is a run with notes that tell more. -/
theorem Reach.renote (hf : ∀ t l m g, f (note' t l m g) = note t l m (f g))
    (hcall : ∀ t op x, K.atCall t op (x.1, f x.2) → K'.atCall t op x)
    (hstep : ∀ l x, K.atStep l (x.1, f x.2) → K'.atStep l x) {init : σ × γ → Prop}
    {init' : σ × γ' → Prop} (hinit : ∀ x, init x → ∃ g, f g = x.2 ∧ init' (x.1, g))
    (h : (O.noted note).Reach K init c) :
    ∃ d, (O.noted note').Reach K' init' d ∧ Renoted note note' f c d := by
  induction h with
  | @init x hx =>
    obtain ⟨g, hg, hx'⟩ := hinit x hx
    refine ⟨Cfg.init (x.1, g), .init hx', ?_, rfl, fun _ => .idle, rfl⟩
    exact Prod.ext rfl hg.symm
  | step a _ ha hs ih =>
    obtain ⟨d, hd, hcd⟩ := ih
    obtain ⟨d', hs', hcd'⟩ := hcd.step hf hs
    exact ⟨d', hd.step a (hcd.allows hcall hstep ha) hs', hcd'⟩

end Renote

end Obj

end ShmPcc
