import ShmPcc.Proofs.ClevelReaders
import ShmPcc.Proofs.ClevelRehash
import ShmPcc.Proofs.ClevelUpdate

/-!
# The proof outline of the running table

The proofs of the single operations put together: in every run in which updates
and erases have their keys to themselves and make their compare-exchanges
undisturbed (`Calm`), every step of every thread is one of the moves, and every
finished call has done what it is for.

What a search may rely on between two calls is `Settled`: the calls made on the
key so far, that none of them is running, and where the item is. The postcondition
of an operation that changes the key establishes it, and the moves of all threads
keep it until the next call on the key.
-/

namespace ShmPcc.ClevelHash

open Prog

variable {K T : Type}

section Alone

variable {H : Table K} {ok : Site → Mem K T → Prop} {t u : Nat} {k : K} {L : List (Op K T)}
  {m m' s : Mem K T}

theorem wp_alone {α : Type} {Q : α → Mem K T → Prop} {p : Code K T α} (h0 : Alone t k L s)
    (h : wp (ctx H ok t) Q p s) :
    wp (ctx H ok t) (fun a m => Q a m ∧ Alone t k L m) p s :=
  wp_frame (stable_of fun _ _ hm h => h.move hm)
    (fun _ hg h => Alone.move h hg) h0 h

theorem Alone.leave {X : Mem K T → Prop} (h : Alone t k L m)
    (hX : X { m with ops := m.ops.filter fun x => x.1 != t }) :
    Settled k L X { m with ops := m.ops.filter fun x => x.1 != t } := by
  refine ⟨h.1, fun hL => ⟨fun u op hop => ?_, hX⟩⟩
  obtain ⟨hop, hne⟩ := List.mem_filter.mp hop
  exact h.2 hL u (fun heq => by simp [heq] at hne) op hop

end Alone

/-! ## What each operation is for -/

/-- The values of the key in the levels that are left. -/
def Mem.Offers (m : Mem K T) (k : K) (v : T) : Prop :=
  ∃ q, m.cur.lastLevel ≤ q.level ∧ m.entryAt q = some (k, v)

theorem Mem.known (m : Mem K T) (k : K) : Known k (m.Offers k) (m.Keeps k) m := by
  refine ⟨fun q w v hq ha he => ⟨q, hq, ?_⟩, id⟩
  obtain ⟨hs, u, hu⟩ := ha
  obtain ⟨hne, _⟩ := entryAt_eq_some.mp hu
  exact entryAt_eq_some.mpr ⟨hne, by rw [hs]; exact he⟩

/-- From the memory in which the call was made to the one it left. `G` is that
inserts only succeed in safe slots. -/
def Post (G : Prop) (op : Op K T) (m₀ : Mem K T) (r : Ret K T) (m₁ : Mem K T) : Prop :=
  (∀ k, op.target = some k → op ∈ m₀.calls k) ∧ match op with
  | .insert k _ _ => m₀.calls k = [op] →
      Settled k [op] (fun m => G → r.found = false → m.Keeps k) m₁
  | .update k v _ => (∃ v₀ a₀, m₀.calls k = [.insert k v₀ a₀, op]) → m₀.Keeps k →
      r.found = true → Settled k (m₀.calls k) (Known k (· = v) True) m₁
  | .erase k => (∃ v₀ a₀, m₀.calls k = [.insert k v₀ a₀, op]) →
      r.found = true → Settled k (m₀.calls k) (fun m => ∀ q w, ¬ m.At k q w) m₁
  | .search k => (∀ u, m₀.Foreign k u) → Answer k (m₀.calls k) (m₀.Offers k) (m₀.Keeps k) r m₁
  | .resize => True

/-! ## Calls -/

section Calls

variable {H : Table K} {t : Nat} {op : Op K T} {m m' : Mem K T}

/-- What a call finds and what it notes. -/
structure Entered (t : Nat) (op : Op K T) (m m' : Mem K T) : Prop where
  rehasher : op = .resize ↔ t = 0
  idle : ∀ x ∈ m.ops, x.1 ≠ t
  called : ∀ k, op.target = some k → m'.calls k = m.calls k ++ [op]
  rest : ∀ k, op.target ≠ some k → m'.calls k = m.calls k
  eq : m' = { m with ops := (t, op) :: m.ops, calls := m'.calls }

theorem entered [DecidableEq K] (he : enter t op m = some m') : Entered t op m m' := by
  simp only [enter, Option.ite_none_right_eq_some, Option.some.injEq] at he
  obtain ⟨hcond, rfl⟩ := he
  refine ⟨?_, hcond.2, fun k hk => ?_, fun k hk => ?_, rfl⟩
  · have h := hcond.1
    cases op <;> simpa using h
  · simp only [hk, Function.update_self]
  · cases hkey : op.target with
    | none => rfl
    | some key => exact Function.update_of_ne (fun h => hk (by rw [hkey, h])) ..

theorem Entered.move (h : Entered t op m m') (hfree : ∀ x ∈ m.ops, ¬ Clash op x.2) :
    Move H t m m' := by
  rw [h.eq]
  exact .enter op m'.calls h.idle hfree h.called h.rest

theorem Entered.running (h : Entered t op m m') : (t, op) ∈ m'.ops := by
  rw [h.eq]
  exact .head _

theorem Entered.mem_calls (h : Entered t op m m') (k : K) (htarget : op.target = some k) :
    op ∈ m'.calls k := by
  rw [h.called k htarget]
  exact List.mem_append_right _ (List.mem_singleton_self _)

variable {k : K}

theorem alone_of_exclusive (hi : Inv H m) (hop : (t, op) ∈ m.ops) (hx : op.exclusive = true)
    (htarget : op.target = some k) : Alone t k (m.calls k) m :=
  ⟨List.prefix_refl _, fun _ _ hu => hi.foreign hop hx htarget hu⟩

theorem Entered.alone (h : Entered t op m m') (hi : Inv H m) (htarget : op.target = some k)
    (hfirst : m'.calls k = [op]) : Alone t k [op] m' := by
  refine ⟨⟨[], hfirst.symm⟩, fun _ u hu op' hop' htarget' => ?_⟩
  rw [h.eq] at hop'
  have hnil : m.calls k = [] := by
    have := h.called k htarget
    rw [hfirst] at this
    simpa using this
  rcases List.mem_cons.mp hop' with heq | hop'
  · exact hu (congrArg Prod.fst heq)
  · have := hi.called _ hop' k htarget'
    rw [hnil] at this
    cases this

theorem calls_of_second (h : Entered t op m m') {first : Op K T} (htarget : op.target = some k)
    (hcalls : m'.calls k = [first, op]) : m.calls k = [first] := by
  have := h.called k htarget
  rw [hcalls] at this
  exact (List.append_inj' (show [first] ++ [op] = m.calls k ++ [op] from this) rfl).1.symm

/-- After one insert there is one word of the key. -/
theorem Inv.only_word {v₀ : T} {a₀ : Word} (hi : Inv H m) (hcalls : m.calls k = [.insert k v₀ a₀])
    {q : Slot} {w : Word} (ha : m.At k q w) : w = setPartial a₀ (H.par k) := by
  obtain ⟨v, he⟩ := ha.entry
  obtain ⟨op, hop, hc⟩ := hi.made _ _ he
  rw [hcalls, List.mem_singleton] at hop
  subst hop
  injection hc with hc
  injection hc with _ haddr
  obtain ⟨hs, u, hu⟩ := ha
  have hpar := (hi.placed.of_entryAt hu).1
  rw [hs] at hpar
  rw [haddr]
  exact word_ext (addr_setPartial (addr_addr w) _).symm (hpar.trans (partialOf_setPartial ..).symm)

/-- The start of an update, with what it can say about the words of the key. -/
theorem Entered.starting {v : T} {a : Word} (hi : Inv H m) (he : Entered t (.update k v a) m m') :
    ∃ w₀, Starting t k v a
      ((∃ v₀ a₀, m'.calls k = [.insert k v₀ a₀, .update k v a]) ∧ m'.Keeps k) w₀ m' := by
  by_cases hpre : (∃ v₀ a₀, m'.calls k = [.insert k v₀ a₀, .update k v a]) ∧ m'.Keeps k
  · obtain ⟨⟨v₀, a₀, hcalls⟩, p, w, hs, ha⟩ := hpre
    have hword : ∀ {q w}, m'.At k q w → w = setPartial a₀ (H.par k) := by
      intro q w ha
      rw [he.eq] at ha
      exact hi.only_word (calls_of_second he rfl hcalls) ha
    refine ⟨_, he.running, fun _ q w _ ha => hword ha, fun _ => ⟨p, hs, ?_⟩⟩
    rw [← hword ha]
    exact ha
  · exact ⟨0, he.running, fun h => absurd h hpre, fun h => absurd h hpre⟩

end Calls

/-! ## The outline -/

section Outline

variable [DecidableEq K] {H : Table K} {G : Prop}

/-- Updates and erases have their keys to themselves, and none are called or
their compare-exchanges are undisturbed. -/
structure Tame (H : Table K) (C : Cond Site (Mem K T) (Op K T)) : Prop where
  free : ∀ t op m, C.atCall t op m → ∀ x ∈ m.ops, ¬ Clash op x.2
  calm : ∀ t op m, C.atCall t op m → op.exclusive = true → ∀ l m, C.atStep l m → Calm H l m

variable {t : Nat} {ok : Site → Mem K T → Prop}

theorem wp_leave {op : Op K T} {m₀ s : Mem K T} {p : Code K T (Ret K T)}
    (h : wp (ctx H ok t) (fun r m => (t = 0 → m.hold.isCopied = false) ∧ Post G op m₀ r { m with ops := m.ops.filter fun x => x.1 != t }) p s) :
    wp (ctx H ok t) (fun r m => Inv H ((obj H).leave t op r m) ∧
      Move H t m ((obj H).leave t op r m) ∧ Post G op m₀ r ((obj H).leave t op r m)) p s :=
  wp_mono (fun _ _ hi h => ⟨(Move.leave h.1).inv hi, .leave h.1, h.2⟩) h

variable {m m' : Mem K T}

theorem insert_ok {k : K} {v : T} {a : Word} (hp : 2 ≤ H.hashpower)
    (hG : G → ∀ q m, ok (.insertCas q) m → m.slots q = 0 → m.Safe q) (hi : Inv H m)
    (he : Entered t (.insert k v a) m m') :
    wp (ctx H ok t) (fun r m => (t = 0 → m.hold.isCopied = false) ∧
      Post G (.insert k v a) m' r { m with ops := m.ops.filter fun x => x.1 != t })
      (genericInsert H t k v a) m' := by
  have ht : t ≠ 0 := fun h => nomatch he.rehasher.mpr h
  by_cases hfirst : m'.calls k = [.insert k v a]
  · have halone := he.alone hi rfl hfirst
    refine wp_mono ?_ (wp_alone halone (genericInsert_wp hp hG he.running
      fun _ => halone))
    intro r m₁ _ h
    refine ⟨fun h => absurd h ht, he.mem_calls, fun _ => ⟨h.2.1, fun hcalls => ?_⟩⟩
    refine ⟨(h.2.leave (X := fun _ => True) trivial).2 hcalls |>.1, fun hg hfound => ?_⟩
    exact (h.1 hfound).keeps hg rfl hcalls
  · refine wp_mono ?_ (genericInsert_wp hp False.elim he.running False.elim)
    exact fun r m₁ _ _ => ⟨fun h => absurd h ht, he.mem_calls, fun h => absurd h hfirst⟩

theorem update_ok {k : K} {v : T} {a : Word} (hp : 2 ≤ H.hashpower)
    (hok : ∀ l m, ok l m → Calm H l m) (hi : Inv H m) (he : Entered t (.update k v a) m m')
    (hi' : Inv H m') :
    wp (ctx H ok t) (fun r m => (t = 0 → m.hold.isCopied = false) ∧
      Post G (.update k v a) m' r { m with ops := m.ops.filter fun x => x.1 != t })
      (genericUpdate H t k v a) m' := by
  have ht : t ≠ 0 := fun h => nomatch he.rehasher.mpr h
  obtain ⟨w₀, hstart⟩ := he.starting hi
  refine wp_mono ?_ (wp_alone (alone_of_exclusive hi' he.running rfl rfl)
    (genericUpdate_wp hp hok hstart))
  rintro r m₁ hi₁ ⟨hr, halone⟩
  refine ⟨fun h => absurd h ht, he.mem_calls, fun hcalls hkeeps hfound => halone.leave ?_⟩
  obtain ⟨haddr, lo, hup⟩ := hr hfound
  refine ⟨fun q w u hq ha hu => ?_, fun _ => ?_⟩
  · have hw : w = setPartial a (H.par k) := hup.same (.inr rfl) q w (Nat.le_trans hup.live hq) ha
    rw [hw, addr_setPartial haddr] at hu
    cases hup.mine.entry.symm.trans hu
    rfl
  · obtain ⟨p, hs, ha⟩ := hup.safe ⟨hcalls, hkeeps⟩
    exact ⟨p, _, hs, ha⟩

theorem erase_ok {k : K} (hok : ∀ l m, ok l m → Calm H l m) (hi : Inv H m)
    (he : Entered t (.erase k) m m') (hi' : Inv H m') :
    wp (ctx H ok t) (fun r m => (t = 0 → m.hold.isCopied = false) ∧
      Post G (.erase k) m' r { m with ops := m.ops.filter fun x => x.1 != t }) (erase H t k) m' := by
  have ht : t ≠ 0 := fun h => nomatch he.rehasher.mpr h
  have hstart : ∃ w₀, Erasing t k (∃ v₀ a₀, m'.calls k = [.insert k v₀ a₀, .erase k]) w₀ false m' := by
    by_cases hpre : ∃ v₀ a₀, m'.calls k = [.insert k v₀ a₀, .erase k]
    · obtain ⟨v₀, a₀, hcalls⟩ := hpre
      refine ⟨setPartial a₀ (H.par k), he.running, fun _ q w ha => ⟨rfl, ?_⟩⟩
      rw [he.eq] at ha
      exact hi.only_word (calls_of_second he rfl hcalls) ha
    · exact ⟨0, he.running, fun h => absurd h hpre⟩
  obtain ⟨w₀, hstart⟩ := hstart
  refine wp_mono ?_ (wp_alone (alone_of_exclusive hi' he.running rfl rfl)
    (erase_wp hok hstart))
  rintro r m₁ hi₁ ⟨hr, halone⟩
  refine ⟨fun h => absurd h ht, he.mem_calls, fun hcalls hfound => halone.leave ?_⟩
  intro q w ha
  have := (hr.same hcalls q w ha).1
  rw [hfound] at this
  cases this

theorem search_ok {k : K} (hp : 2 ≤ H.hashpower) (he : Entered t (.search k) m m') (hi' : Inv H m') :
    wp (ctx H ok t) (fun r m => (t = 0 → m.hold.isCopied = false) ∧
      Post G (.search k) m' r { m with ops := m.ops.filter fun x => x.1 != t }) (search H k) m' := by
  have ht : t ≠ 0 := fun h => nomatch he.rehasher.mpr h
  have hstart : ∃ L, Settled k L (Known k (m'.Offers k) (m'.Keeps k)) m' ∧
      ((∀ u, m'.Foreign k u) → L = m'.calls k) := by
    by_cases hf : ∀ u, m'.Foreign k u
    · exact ⟨_, ⟨List.prefix_refl _, fun _ => ⟨hf, m'.known k⟩⟩, fun _ => rfl⟩
    · -- nothing is said about a key with an operation running on it
      refine ⟨[], ⟨List.nil_prefix, fun hnil => absurd ?_ hf⟩, fun h => absurd h hf⟩
      intro u op hop htarget
      have := hi'.called _ hop k htarget
      rw [hnil] at this
      cases this
  obtain ⟨L, hsettled, hL⟩ := hstart
  refine wp_mono ?_ (wp_quiet (A := fun _ => True)
    (fun _ _ _ _ => trivial) trivial (search_wp hp hsettled))
  rintro r m₁ - ⟨hr, -⟩
  refine ⟨fun h => absurd h ht, he.mem_calls, fun hf => ?_⟩
  rw [← hL hf]
  exact hr.move (fun _ h => h) (Move.leave (H := H) (t := t) fun h => absurd h ht)

omit [DecidableEq K] in
theorem resize_ok (hi : Inv H m) (he : Entered 0 .resize m m') :
    wp (ctx H ok 0) (fun r m => (0 = 0 → m.hold.isCopied = false) ∧
      Post G .resize m' r { m with ops := m.ops.filter fun x => x.1 != 0 })
      (resize H >>= fun _ => pure {}) m' := by
  have hfree : m'.hold.isCopied = false := by
    rw [he.eq]
    exact hi.idle he.idle
  have hst : Stable H 0 fun m : Mem K T => m.hold.isCopied = false :=
    stable_of fun hu _ hm h => by rw [(hm.rehasher hu).2]; exact h
  refine wp_bind (wp_mono ?_ (resize_wp hfree he.running))
  exact fun _ m₁ _ h => wp_ret_of hst h
    fun _ _ h => ⟨fun _ => h, he.mem_calls, trivial⟩

/-- Inserts only succeed in safe slots. -/
def SafeInserts (C : Cond Site (Mem K T) (Op K T)) : Prop :=
  ∀ q m, C.atStep (.insertCas q) m → m.slots q = 0 → m.Safe q

/-- The proof outline of the table. -/
def outline (hp : 2 ≤ H.hashpower) {C : Cond Site (Mem K T) (Op K T)} (hC : Tame H C) :
    Outline (obj H) C :=
  .ofMoves (Inv H) (Move H) (fun _ => Post (SafeInserts C)) (fun _ _ => .stay)
    (fun hi hcall he =>
      have hm := (entered he).move (hC.free _ _ _ hcall)
      ⟨hm.inv hi, hm⟩)
    (by
      intro t op m m' hi hcall he
      have hentered := entered he
      have hi' := (hentered.move (hC.free _ _ _ hcall)).inv hi
      refine wp_leave ?_
      cases op with
      | insert k v a => exact insert_ok hp id hi hentered
      | update k v a => exact update_ok hp (hC.calm _ _ _ hcall rfl) hi hentered hi'
      | erase k => exact erase_ok (hC.calm _ _ _ hcall rfl) hi hentered hi'
      | search k => exact search_ok hp hentered hi'
      | resize =>
        obtain rfl := hentered.rehasher.mp rfl
        exact resize_ok hi hentered)

/-- Every configuration that such runs reach bears the outline out. -/
theorem holds_of_reach (hp : 2 ≤ H.hashpower) {C : Cond Site (Mem K T) (Op K T)} (hC : Tame H C)
    {c : Cfg Site (Mem K T) (Op K T) (Ret K T)} (h : (obj H).Reach C Init c) :
    (outline hp hC).Holds c := by
  refine (outline hp hC).sound ?_ h
  rintro m ⟨before, rfl⟩
  exact inv_start before

end Outline

end ShmPcc.ClevelHash
