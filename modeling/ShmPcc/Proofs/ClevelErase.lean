import ShmPcc.Proofs.ClevelInsert

/-!
# `erase` among other threads

`update` and `erase` have their key to themselves, apart from the rehasher. Two
things may not happen to them at a compare-exchange that takes a word out of a
slot, and the code does not prevent them: that the rehasher has the word of that
slot in its hand, and, where the entry is deleted, that another slot holds the
same word. `Calm` says that they do not happen.

Under this condition `erase` leaves no slot with its key behind once it has
taken the word out of one, if all slots with the key held that word.
-/

namespace ShmPcc.ClevelHash

open Function Prog

variable {K T : Type}

/-- The slots in which a lookup of the key looks, in the first `levels` levels. -/
def Table.places (H : Table K) (key : K) (levels : Nat) : List Slot :=
  (List.range levels).flatMap fun level => (List.range assocNum).flatMap fun j =>
    [⟨level, H.fIdx key level, j⟩, ⟨level, H.sIdx key level, j⟩]

theorem Table.mem_places {H : Table K} {key : K} {levels : Nat} {p : Slot}
    (hp : H.IsSlot key p) (hl : p.level < levels) : p ∈ H.places key levels := by
  obtain ⟨level, bucket, j⟩ := p
  refine List.mem_flatMap.mpr ⟨level, List.mem_range.mpr hl, ?_⟩
  refine List.mem_flatMap.mpr ⟨j, List.mem_range.mpr hp.2, ?_⟩
  rcases hp.1 with h | h
  · exact List.mem_cons.mpr (.inl (by rw [← h]))
  · exact .tail _ (List.mem_singleton.mpr (by rw [← h]))

/-- No other slot of the key holds the word of slot `q`. -/
def Sole (H : Table K) (m : Mem K T) (q : Slot) : Prop :=
  ∀ kv ∈ m.entries (addr (m.slots q)), ∀ p ∈ H.places kv.1 m.levels,
    p ≠ q → m.slots p ≠ m.slots q

/-- A compare-exchange that takes a word out of a slot does not meet the
rehasher there, and takes the last one of an entry that is deleted. -/
def Calm (H : Table K) : Site → Mem K T → Prop
  | .updateCas q e, m => m.slots q = e → m.hold ≠ .none → q ≠ m.src
  | .dupCas q e, m => m.slots q = e → m.hold.isHeld = true → q ≠ m.src
  | .eraseCas q e, m | .dupDeleteCas q e, m =>
    m.slots q = e → (m.hold.isHeld = true → q ≠ m.src) ∧ Sole H m q
  | _, _ => True

section Exclusive

variable {H : Table K} {t : Nat} {op : Op K T} {k : K} {m m' : Mem K T}

variable {q : Slot}

theorem Inv.sole (hi : Inv H m) {kv : K × T} (hq : m.entryAt q = some kv) (hs : Sole H m q)
    (p : Slot) (hp : p ≠ q) : m.slots p ≠ m.slots q := by
  intro heq
  obtain ⟨hne, he⟩ := entryAt_eq_some.mp hq
  have hp' : m.entryAt p = some kv := entryAt_eq_some.mpr ⟨by rw [heq]; exact hne, by rw [heq]; exact he⟩
  obtain ⟨_, hslot, hz⟩ := hi.placed.of_entryAt hp'
  have hl := Nat.lt_of_le_of_lt (hi.below p hz) hi.top
  exact hs kv he p (Table.mem_places hslot hl) hp heq

/-- The other threads leave the key of an update or erase alone. -/
theorem Inv.foreign (hi : Inv H m) (hop : (t, op) ∈ m.ops) (hx : op.exclusive = true)
    (htarget : op.target = some k) {u : Nat} (hu : u ≠ t) : m.Foreign k u := by
  intro op' hop' htarget'
  exact hi.target_ne hop hop' hu (.inl hx) (htarget'.trans htarget.symm)

/-- The entry at an address has the key and belongs to no thread. -/
def Listed (k : K) (a : Word) (m : Mem K T) : Prop :=
  ∃ v, m.entries a = some (k, v) ∧ m.owner a = none

variable {a : Word}

theorem Listed.move (h : Listed k a m) {u : Nat} (hf : m.Foreign k u) (hm : Move H u m m') :
    Listed k a m' := by
  obtain ⟨v, he, ho⟩ := h
  exact ⟨v, hm.entry_kept (fun op hop _ => hf op hop) he ho⟩

/-- It is so, or the entry does not have the key. -/
def Judged (k : K) (a : Word) (m : Mem K T) : Prop :=
  Listed k a m ∨ ∀ v, m.entries a ≠ some (k, v)

theorem Judged.move (h : Judged k a m) {u : Nat} (hf : m.Foreign k u) (hm : Move H u m m') :
    Judged k a m' :=
  h.imp (fun h => h.move hf hm) fun hne v he => hne v (hm.entry_origin hf he)

theorem Judged.listed (h : Judged k a m) {kv : K × T} (he : m.entries a = some kv) (hk : kv.1 = k) :
    Listed k a m :=
  h.resolve_right fun hne => hne kv.2 (by rw [he, ← hk])

theorem Inv.owner_none (hi : Inv H m) (hq : m.slots q ≠ 0) : m.owner (addr (m.slots q)) = none := by
  cases ho : m.owner (addr (m.slots q)) with
  | none => rfl
  | some u => exact absurd rfl (hi.hidden_entries ho hq)

theorem Inv.judged (hi : Inv H m) (k : K) (hq : m.slots q ≠ 0) : Judged k (addr (m.slots q)) m := by
  by_cases h : ∃ v, m.entries (addr (m.slots q)) = some (k, v)
  · obtain ⟨v, he⟩ := h
    exact .inl ⟨v, he, hi.owner_none hq⟩
  · exact .inr fun v he => h ⟨v, he⟩

theorem at_release {p : Slot} {w : Word} (h : (m.release a).At k p w) : m.At k p w := by
  obtain ⟨hs, v, hv⟩ := h
  obtain ⟨hne, he⟩ := entryAt_eq_some.mp hv
  refine ⟨hs, v, entryAt_eq_some.mpr ⟨hne, ?_⟩⟩
  have hna : addr (m.slots p) ≠ a := by
    intro ha
    rw [show (m.release a).entries (addr ((m.release a).slots p)) = none from by
      rw [show addr ((m.release a).slots p) = a from ha]; exact update_self ..] at he
    cases he
  exact (update_of_ne hna ..).symm.trans he

theorem at_clear {p : Slot} {w : Word} (owner : Word → Option Nat)
    (h : ({ m with slots := update m.slots q 0, owner := owner } : Mem K T).At k p w) :
    p ≠ q ∧ m.At k p w := by
  have hpq : p ≠ q := by
    rintro rfl
    exact h.ne_zero (update_self ..)
  obtain ⟨hs, v, hv⟩ := h
  obtain ⟨hne, he⟩ := entryAt_eq_some.mp hv
  dsimp only at hs hne he
  rw [update_of_ne hpq] at hs hne he
  exact ⟨hpq, hs, v, entryAt_eq_some.mpr ⟨hne, he⟩⟩

end Exclusive

/-! ## `erase` -/

section Erase

variable {H : Table K} {ok : Site → Mem K T → Prop} {t : Nat} {key : K} {Pre : Prop} {w₀ : Word}

/-- The erase is running. If all slots with the key held the word `w₀` when it
started, then they still do, and there are none after a deletion. -/
structure Erasing (t : Nat) (key : K) (Pre : Prop) (w₀ : Word) (succ : Bool) (m : Mem K T) :
    Prop where
  running : (t, .erase key) ∈ m.ops
  same : Pre → ∀ q w, m.At key q w → succ = false ∧ w = w₀

theorem Erasing.move {succ : Bool} {m m' : Mem K T} (h : Erasing t key Pre w₀ succ m)
    (hi : Inv H m) {u : Nat} (hu : u ≠ t) (hm : Move H u m m') : Erasing t key Pre w₀ succ m' := by
  refine ⟨hm.ops_kept hu h.running, fun hpre q w ha => ?_⟩
  rcases hm.at_origin hi (hi.foreign h.running rfl rfl hu) ha with ha | ⟨ha, _⟩
  · exact h.same hpre q w ha
  · exact h.same hpre _ w ha

theorem erasing_stable {succ : Bool} : Stable H t (Erasing t key Pre w₀ succ : Mem K T → Prop) :=
  stable_of fun hu hi hm h => h.move hi hu hm

theorem loadNeighbour_wp {level bucket : Nat} {A : Mem K T → Prop} {s : Mem K T}
    {Q : Bool → Mem K T → Prop} (hA : Stable H t A) (h0 : A s) (hQ : ∀ m, A m → Q true m) :
    wp (ctx H ok t) Q (loadNeighbour level bucket >>= fun _ => pure true) s := by
  rw [loadNeighbour]
  split
  · exact wp_read_of hA h0 fun _ _ ha =>
      wp_ret_of hA ha fun m _ h => hQ m h
  · exact wp_read_of hA h0 fun _ _ ha =>
      wp_ret_of hA ha fun m _ h => hQ m h

variable [DecidableEq K]

theorem eraseSlot_wp (hok : ∀ l m, ok l m → Calm H l m) {ptr i : Nat} {q : Slot} {succ : Bool}
    {s : Mem K T} (hs : Erasing t key Pre w₀ succ s) :
    wp (ctx H ok t) (fun done m => Erasing t key Pre w₀ (succ || done) m)
      (eraseSlot H t key ptr i q) s := by
  have hfalse : ∀ m : Mem K T, Erasing t key Pre w₀ succ m → wp (ctx H ok t)
      (fun done m => Erasing t key Pre w₀ (succ || done) m) (pure false) m := by
    intro m hm
    refine wp_ret_of erasing_stable hm fun m' _ h => ?_
    rw [Bool.or_false]
    exact h
  have htrue : ∀ m : Mem K T, Erasing t key Pre w₀ true m → wp (ctx H ok t)
      (fun done m => Erasing t key Pre w₀ (succ || done) m) (pure true) m := by
    intro m hm
    refine wp_ret_of erasing_stable hm fun m' _ h => ?_
    rw [Bool.or_true]
    exact h
  refine wp_read_of erasing_stable hs fun m hi hm => ?_
  split
  · next htest =>
    have hne : m.slots q ≠ 0 := fun hz => htest.2 (by rw [hz, addr_zero])
    have hst : Stable H t fun m' : Mem K T => Erasing t key Pre w₀ succ m' ∧
        Judged key (addr (m.slots q)) m' :=
      stable_of fun hu hi hm h =>
        ⟨h.1.move hi hu hm, h.2.move (hi.foreign h.1.running rfl rfl hu) hm⟩
    refine wp_loadEntry hst ⟨hm, hi.judged key hne⟩ fun m₁ kv _ hm₁ he => ?_
    split
    · next hk =>
      have hst' : Stable H t fun m' : Mem K T => Erasing t key Pre w₀ succ m' ∧
          Listed key (addr (m.slots q)) m' :=
        stable_of fun hu hi hm h =>
          ⟨h.1.move hi hu hm, h.2.move (hi.foreign h.1.running rfl rfl hu) hm⟩
      refine wp_casSlot hst' ⟨hm₁.1, hm₁.2.listed he hk⟩ ?_ fun m₂ _ hm₂ _ => hfalse m₂ hm₂.1
      rintro m₂ hi₂ ⟨hm₂, v, he₂, -⟩ hok₂ hw
      obtain ⟨hheld, hsole⟩ := hok _ _ hok₂ hw
      have ha : m₂.At key q (m.slots q) := Mem.at_of_entry hw htest.2 he₂
      obtain ⟨v', hv'⟩ := ha.2
      have hsole := hi₂.sole hv' hsole
      have hremove := Move.remove (H := H) (t := t) (.erase key) key v' q hm₂.running rfl rfl hv'
        hsole hheld
      rw [hw] at hremove hsole
      refine ⟨hremove, ?_⟩
      -- the other slots with the key held the same word, and none of them does
      have hgone : Erasing t key Pre w₀ true (Mem.own t (addr (m.slots q))
          { m₂ with slots := update m₂.slots q 0 }) := by
        refine ⟨hm₂.running, fun hpre p w hp => ?_⟩
        obtain ⟨hpq, hp⟩ := at_clear _ hp
        have h1 := (hm₂.same hpre p w hp).2
        have h2 := (hm₂.same hpre q _ ha).2
        exact absurd (hp.1.trans (h1.trans h2.symm)) (hsole p hpq)
      have hst'' : Stable H t fun m' : Mem K T => Erasing t key Pre w₀ true m' ∧
          m'.entries (addr (m.slots q)) = some (key, v) ∧
          m'.owner (addr (m.slots q)) = some t :=
        stable_of fun hu hi hm h => ⟨h.1.move hi hu hm, hm.entry_private hi hu h.2.1 h.2.2⟩
      refine wp_deleteEntry hst'' ⟨hgone, he₂, update_self ..⟩ (fun _ h => h.2.2)
        fun m₃ _ hm₃ => ?_
      have hm₄ : Erasing t key Pre w₀ true (m₃.release (addr (m.slots q))) :=
        ⟨hm₃.1.running, fun hpre p w hp => hm₃.1.same hpre p w (at_release hp)⟩
      refine wp_read_of erasing_stable hm₄ fun m₅ _ hm₅ => ?_
      split
      · exact htrue m₅ hm₅
      · split
        · refine loadNeighbour_wp erasing_stable hm₅ fun m h => ?_
          rw [Bool.or_true]
          exact h
        · exact htrue m₅ hm₅
    · exact hfalse m₁ hm₁.1
  · exact hfalse m hm

theorem eraseBucket_wp (hok : ∀ l m, ok l m → Calm H l m) {ptr i level bucket : Nat} :
    ∀ n j succ (s : Mem K T), Erasing t key Pre w₀ succ s →
    wp (ctx H ok t) (fun succ m => Erasing t key Pre w₀ succ m)
      (eraseBucket H t key ptr i level bucket n j succ) s := by
  intro n
  induction n with
  | zero =>
    exact fun j succ s hs => wp_ret_of erasing_stable hs fun _ _ h => h
  | succ n ih =>
    intro j succ s hs
    exact wp_bind (wp_mono (fun done m _ hm => ih (j + 1) _ m hm)
      (eraseSlot_wp hok hs))

theorem eraseLevels_wp (hok : ∀ l m, ok l m → Calm H l m) {ptr : Nat} {mt : Meta} :
    ∀ n li i succ (s : Mem K T), Erasing t key Pre w₀ succ s →
    wp (ctx H ok t) (fun succ m => Erasing t key Pre w₀ succ m)
      (eraseLevels H t key ptr mt n li i succ) s := by
  intro n
  induction n with
  | zero => exact fun _ _ _ _ _ => trivial
  | succ n ih =>
    intro li i succ s hs
    refine wp_bind (wp_mono ?_ (eraseBucket_wp hok assocNum 0 succ s hs))
    intro succ m _ hm
    refine wp_bind (wp_mono ?_ (eraseBucket_wp hok assocNum 0 succ m hm))
    intro succ m _ hm
    refine wp_read_of erasing_stable hm fun m _ hm => ?_
    split
    · exact wp_ret_of erasing_stable hm fun _ _ h => h
    · split
      · exact ih _ _ succ m hm
      · trivial

theorem eraseLoop_wp (hok : ∀ l m, ok l m → Calm H l m) : ∀ n ptr mt succ (s : Mem K T),
    Erasing t key Pre w₀ succ s →
    wp (ctx H ok t) (fun r m => Erasing t key Pre w₀ r.found m)
      (eraseLoop H t key n ptr mt succ) s := by
  intro n
  induction n with
  | zero => exact fun _ _ _ _ _ => trivial
  | succ n ih =>
    intro ptr mt succ s hs
    refine wp_bind (wp_mono ?_ (eraseLevels_wp hok mt.span mt.lastLevel 0 succ s hs))
    intro succ m _ hm
    refine wp_read_of erasing_stable hm fun m _ hm => ?_
    split
    · exact wp_ret_of erasing_stable hm fun _ _ h => h
    · exact ih _ _ succ m hm

/-- An erase makes nothing but moves, and what it found is gone. -/
theorem erase_wp (hok : ∀ l m, ok l m → Calm H l m) {s : Mem K T}
    (hs : Erasing t key Pre w₀ false s) :
    wp (ctx H ok t) (fun r m => Erasing t key Pre w₀ r.found m) (erase H t key) s :=
  wp_read_of erasing_stable hs fun m _ hm =>
    eraseLoop_wp hok H.retries _ _ false m hm

end Erase

end ShmPcc.ClevelHash
