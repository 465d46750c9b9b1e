import ShmPcc.Lib.Slots
import ShmPcc.Proofs.ClevelLoads

/-!
# Lookups that nobody interferes with

What `search` and `find` return when they run alone on a table whose words are
well placed. `search` answers with an entry of the key, and answers that there
is none only if no slot of its snapshot holds one. A pass of `find` keeps a
record, `Pass`, of what the slots it visited hold: the key's slot if there was
one, and otherwise the highest level in which a slot was empty.

The loops over slots, buckets and levels each have one lemma, by induction on
the slots or levels that are left; the visited slots are a predicate that grows
along the way.
-/

namespace ShmPcc.ClevelHash

open Prog

variable {K T : Type}

/-! ## Accesses, run alone -/

section Accesses

variable {m : Mem K T}

@[simp] theorem runs_loadMeta {Q : Nat × Meta → Mem K T → Prop} :
    loadMeta.runs Q m ↔ Q (m.metaPtr, m.cur) m := Iff.rfl

@[simp] theorem runs_loadUp {Q : Option Nat → Mem K T → Prop} {level : Nat} :
    (loadUp level).runs Q m ↔ Q (if level + 1 < m.levels then some (level + 1) else none) m :=
  Iff.rfl

@[simp] theorem runs_loadSlot {Q : Word → Mem K T → Prop} {q : Slot} :
    (loadSlot q).runs Q m ↔ Q (m.slots q) m := Iff.rfl

theorem runs_loadEntry {Q : K × T → Mem K T → Prop} {a : Word} {kv : K × T}
    (h : m.entries a = some kv) : (loadEntry a).runs Q m ↔ Q kv m := by
  simp only [loadEntry, runs_step, id, h, runs_ret]

theorem runs_casSlot {Q : Bool → Mem K T → Prop} {l : Site} {q : Slot} {e d : Word}
    {note : Mem K T → Mem K T} (h : m.slots q = e) :
    (casSlot l q e d note).runs Q m ↔
      Q true (note { m with slots := Function.update m.slots q d }) := by
  simp only [casSlot, runs_rmw, h, if_true, beq_self_eq_true]

theorem collectLevels_runs {mt : Meta} (htop : mt.firstLevel < m.levels) : ∀ n li,
    li ≤ mt.firstLevel → mt.firstLevel + 1 - li ≤ n →
    (collectLevels mt n li).runs (fun levels m' => m' = m ∧
      levels = List.range' li (mt.firstLevel + 1 - li)) m := by
  intro n
  induction n with
  | zero =>
    intro li h1 h2
    omega
  | succ n ih =>
    intro li h1 h2
    rw [collectLevels, runs_bind, runs_loadUp]
    split
    · next hli =>
      refine ⟨rfl, ?_⟩
      rw [hli, Nat.add_sub_cancel_left, List.range'_one]
    · next hli =>
      rw [if_pos (show li + 1 < m.levels by omega)]
      simp only [runs_bind]
      refine runs_mono ?_ (ih (li + 1) (by omega) (by omega))
      rintro rest m' ⟨rfl, rfl⟩
      refine ⟨rfl, ?_⟩
      rw [show mt.firstLevel + 1 - li = mt.firstLevel + 1 - (li + 1) + 1 by omega,
        List.range'_succ]

/-- A chain that is longer than the array runs past its end. -/
theorem collectLevels_overflows {mt : Meta} : ∀ n li, li ≤ mt.firstLevel →
    n < mt.firstLevel + 1 - li → ∀ Q, ¬ (collectLevels mt n li : Code K T _).runs Q m := by
  intro n
  induction n with
  | zero => exact fun li _ _ Q h => h
  | succ n ih =>
    intro li h1 h2 Q h
    rw [collectLevels, runs_bind, runs_loadUp, if_neg (by omega)] at h
    split at h
    · next nextLi hup =>
      rw [runs_bind] at h
      have hnext : nextLi = li + 1 := by
        split at hup
        · exact (Option.some.inj hup).symm
        · cases hup
      exact ih nextLi (by omega) (by omega) _ h
    · exact h

end Accesses

/-! ## `search` -/

section Search

variable [DecidableEq K] {H : Table K} {m : Mem K T}

theorem searchBucket_runs (hw : WellPlaced H m) (key : K) (level bucket : Nat) :
    ∀ n j, (searchBucket H key level bucket n j).runs (fun r m' => m' = m ∧
      (∀ i kv, r = some (i, kv) → kv.1 = key ∧ m.entryAt ⟨level, bucket, i⟩ = some kv) ∧
      (r = none → ∀ i v, j ≤ i → i < j + n →
        m.entryAt ⟨level, bucket, i⟩ ≠ some (key, v))) m := by
  intro n
  induction n with
  | zero =>
    intro j
    refine ⟨rfl, fun i kv h => (by cases h), fun _ i v hj hj' => ?_⟩
    omega
  | succ n ih =>
    intro j
    rw [searchBucket, runs_bind, runs_loadSlot]
    -- the slots after `j`, once slot `j` is known not to hold the key
    have hrest : (∀ v, m.entryAt ⟨level, bucket, j⟩ ≠ some (key, v)) →
        (searchBucket H key level bucket n (j + 1)).runs (fun r m' => m' = m ∧
          (∀ i kv, r = some (i, kv) → kv.1 = key ∧ m.entryAt ⟨level, bucket, i⟩ = some kv) ∧
          (r = none → ∀ i v, j ≤ i → i < j + (n + 1) →
            m.entryAt ⟨level, bucket, i⟩ ≠ some (key, v))) m := by
      intro hj
      refine runs_mono ?_ (ih (j + 1))
      rintro r m' ⟨hm, hsome, hnone⟩
      refine ⟨hm, hsome, fun hr i v hi hi' => ?_⟩
      rcases Nat.eq_or_lt_of_le hi with rfl | hlt
      · exact hj v
      · exact hnone hr i v hlt (by omega)
    split
    · next htest =>
      obtain ⟨kv, he⟩ : ∃ kv, m.entries (addr (m.slots ⟨level, bucket, j⟩)) = some kv := by
        have hne : m.slots ⟨level, bucket, j⟩ ≠ 0 := fun hz => htest.2 (by rw [hz, addr_zero])
        obtain ⟨kv, he, _⟩ := (hw _ hne).entry
        exact ⟨kv, he⟩
      have hat := entryAt_eq_some.mpr ⟨htest.2, he⟩
      rw [runs_bind, runs_loadEntry he]
      split
      · next hkey =>
        refine ⟨rfl, ?_, fun h => (by cases h)⟩
        intro i kv' h
        injection h with h
        injection h with h1 h2
        subst h1 h2
        exact ⟨hkey, hat⟩
      · next hkey =>
        refine hrest fun v hv => hkey ?_
        rw [hat] at hv
        rw [Option.some.inj hv]
    · next htest => exact hrest (entryAt_ne_of_mismatch hw htest)

theorem searchLevels_runs (hw : WellPlaced H m) (key : K) (mt : Meta)
    (htop : mt.firstLevel < m.levels) : ∀ n li i, li + n = mt.firstLevel + 1 → 0 < n →
    (searchLevels H key mt n li i).runs (fun r m' => m' = m ∧
      (∀ r', r = some r' → r'.found = true ∧
        ∃ q v, m.entryAt q = some (key, v) ∧ r'.value = some (key, v)) ∧
      (r = none → m.Without key li mt.firstLevel)) m := by
  intro n
  induction n with
  | zero =>
    intro li i _ h0
    omega
  | succ n ih =>
    intro li i hn _
    -- a bucket that answers ends the search
    have hans : ∀ b j kv, kv.1 = key → m.entryAt ⟨li, b, j⟩ = some kv →
        ∀ r : Ret K T, r.found = true → r.value = some kv →
        (∀ r', some r = some r' → r'.found = true ∧
          ∃ q v, m.entryAt q = some (key, v) ∧ r'.value = some (key, v)) := by
      rintro b j ⟨k, v⟩ rfl hat r hf hv r' hr
      injection hr with hr
      subst hr
      exact ⟨hf, ⟨li, b, j⟩, v, hat, hv⟩
    rw [searchLevels, runs_bind]
    refine runs_mono ?_ (searchBucket_runs hw key li (H.fIdx key li) assocNum 0)
    rintro f m₁ ⟨rfl, hfs, hfn⟩
    cases f with
    | some x =>
      obtain ⟨hk, hat⟩ := hfs x.1 x.2 rfl
      exact ⟨rfl, hans _ _ _ hk hat _ rfl rfl, fun h => (by cases h)⟩
    | none =>
      rw [runs_bind]
      refine runs_mono ?_ (searchBucket_runs hw key li (H.sIdx key li) assocNum 0)
      rintro s m₂ ⟨rfl, hss, hsn⟩
      cases s with
      | some x =>
        obtain ⟨hk, hat⟩ := hss x.1 x.2 rfl
        exact ⟨rfl, hans _ _ _ hk hat _ rfl rfl, fun h => (by cases h)⟩
      | none =>
        have hlevel := Mem.Without.level hw (hfn rfl) (hsn rfl)
        simp only [runs_bind, runs_loadUp]
        split
        · next hli =>
          rw [← hli]
          exact ⟨rfl, fun r' h => (by cases h), fun _ => hlevel⟩
        · next hli =>
          rw [if_pos (show li + 1 < m₂.levels by omega)]
          refine runs_mono ?_ (ih (li + 1) (i + 1) (by omega) (by omega))
          rintro r m' ⟨hm, hsome, hnone⟩
          exact ⟨hm, hsome, fun hr => hlevel.cons (hnone hr)⟩

end Search

/-! ## `find` -/

@[simp] theorem FCode.isFound_found (side : Side) : (FCode.found side).isFound = true := by
  cases side <;> rfl

@[simp] theorem FCode.isFound_vacancy (side : Side) : (FCode.vacancy side).isFound = false := by
  cases side <;> rfl

@[simp] theorem FCode.isVacancy_vacancy (side : Side) : (FCode.vacancy side).isVacancy = true := by
  cases side <;> rfl

theorem FCode.not_vacancy_of_found {c : FCode} (h : c.isFound = true) : c.isVacancy = false := by
  cases c <;> first | rfl | cases h

/-- What a pass of `find` knows after visiting the slots `V`, where level
number 0 is level `base`. -/
structure Pass (m : Mem K T) (key : K) (base : Nat) (V : Slot → Prop) (f : Find) : Prop where
  found : f.result.isFound = true →
    ∃ q, V q ∧ f.e = some q ∧ f.oldE = m.slots q ∧ ∃ v, m.entryAt q = some (key, v)
  absent : f.result.isFound = false → ∀ q v, V q → m.entryAt q ≠ some (key, v)
  vacant : f.result.isVacancy = true →
    ∃ q, V q ∧ f.e = some q ∧ m.slots q = 0 ∧ f.oldE = 0 ∧ q.level = base + f.levelNum
  best : f.result.isFound = false → ∀ q, V q → m.slots q = 0 →
    f.result.isVacancy = true ∧ q.level ≤ base + f.levelNum

/-- A skipped empty slot is no better than the vacancy noted for level
number `i`. -/
def Find.Noted (f : Find) (i : Nat) : Prop :=
  f.result.isFound = true ∨ f.result.isVacancy = true ∧ f.levelNum = i

/-- How a visit may end: with the next slot, or with the key found where
duplicates are not looked for. -/
def VisitOk (m : Mem K T) (query : Query K) (base : Nat) (V : Slot → Prop) (i : Nat) : Visit → Prop
  | .next f foundEmptyInB =>
    Pass m query.key base V f ∧ (foundEmptyInB = true → f.Noted i)
  | .done f => query.fixDup = false ∧ f.result.isFound = true ∧
      ∃ q v, m.entryAt q = some (query.key, v)
  | .retry _ => False

theorem Pass.skip {m : Mem K T} {key : K} {base : Nat} {V : Slot → Prop} {f : Find} {q : Slot}
    (h : Pass m key base V f) (hno : ∀ v, m.entryAt q ≠ some (key, v))
    (hbest : f.result.isFound = false → m.slots q = 0 →
      f.result.isVacancy = true ∧ q.level ≤ base + f.levelNum) :
    Pass m key base (fun p => V p ∨ p = q) f where
  found hf := by
    obtain ⟨p, hp, hrest⟩ := h.found hf
    exact ⟨p, .inl hp, hrest⟩
  absent hf p v hp := by
    rcases hp with hp | rfl
    · exact h.absent hf p v hp
    · exact hno v
  vacant hv := by
    obtain ⟨p, hp, hrest⟩ := h.vacant hv
    exact ⟨p, .inl hp, hrest⟩
  best hf p hp hz := by
    rcases hp with hp | rfl
    · exact h.best hf p hp hz
    · exact hbest hf hz

theorem Pass.congr {m : Mem K T} {key : K} {base : Nat} {V V' : Slot → Prop} {f : Find}
    (h : Pass m key base V f) (hV : ∀ p, V p ↔ V' p) : Pass m key base V' f := by
  obtain rfl : V = V' := funext fun p => propext (hV p)
  exact h

section Find

variable [DecidableEq K] {H : Table K} {m : Mem K T} {abs : K → Option T}

theorem visitSlot_runs (hw : WellPlaced H m) (hrep : Represents m.entryAt abs) {t : Nat}
    {query : Query K} {levels : List Nat} {side : Side} {base i : Nat} {q : Slot} {f : Find}
    {foundEmptyInB : Bool} {V : Slot → Prop} (hV : ¬ V q) (hlevel : q.level = base + i)
    (hp : Pass m query.key base V f) (hnoted : foundEmptyInB = true → f.Noted i)
    (hlow : ∀ p, V p → p.level ≤ base + i) :
    (visitSlot H t query levels side i q f foundEmptyInB).runs (fun v m' => m' = m ∧
      VisitOk m query base (fun p => V p ∨ p = q) i v) m := by
  rw [visitSlot, runs_bind, runs_loadSlot]
  split
  · next ha =>
    have hz : m.slots q = 0 := hw.addr_eq_zero.mp ha
    have hno : ∀ v, m.entryAt q ≠ some (query.key, v) :=
      fun v hv => (entryAt_eq_some.mp hv).1 ha
    split
    · next hc =>
      split
      · next hpref =>
        have hvac : f.result.isVacancy = true := by rw [hpref.2.1]; rfl
        refine ⟨rfl, hp.skip hno ?_, fun _ => .inr ⟨hvac, hpref.2.2.1⟩⟩
        exact fun _ _ => ⟨hvac, by rw [hpref.2.2.1, hlevel]⟩
      · next hpref =>
        refine ⟨rfl, ⟨?_, ?_, ?_, ?_⟩, fun _ => .inr ⟨?_, rfl⟩⟩
        · intro hf
          rw [FCode.isFound_vacancy] at hf
          cases hf
        · rintro _ p v (hVp | rfl)
          · exact hp.absent hc.1 p v hVp
          · exact hno v
        · exact fun _ => ⟨q, .inr rfl, rfl, hz, hz, hlevel⟩
        · rintro _ p (hVp | rfl) _
          · exact ⟨FCode.isVacancy_vacancy side, hlow p hVp⟩
          · exact ⟨FCode.isVacancy_vacancy side, Nat.le_of_eq hlevel⟩
        · exact FCode.isVacancy_vacancy side
    · next hc =>
      refine ⟨rfl, hp.skip hno ?_, hnoted⟩
      intro hf _
      have hfe : foundEmptyInB = true := by
        cases hb : foundEmptyInB with
        | true => rfl
        | false => exact absurd ⟨hf, hb⟩ hc
      rcases hnoted hfe with hfound | ⟨hvac, hi⟩
      · rw [hfound] at hf
        cases hf
      · exact ⟨hvac, by rw [hi, hlevel]⟩
  · next ha =>
    have hne : m.slots q ≠ 0 := fun hz => ha (by rw [hz, addr_zero])
    have hskip : (∀ v, m.entryAt q ≠ some (query.key, v)) →
        Pass m query.key base (fun p => V p ∨ p = q) f :=
      fun hno => hp.skip hno fun _ hz => absurd hz hne
    split
    · next hpar =>
      exact ⟨rfl, hskip (entryAt_ne_of_mismatch hw fun h => hpar h.1), hnoted⟩
    · obtain ⟨kv, he, _⟩ := (hw q hne).entry
      have hat := entryAt_eq_some.mpr ⟨ha, he⟩
      rw [runs_bind, runs_loadEntry he]
      split
      · next hkey =>
        refine ⟨rfl, hskip fun v hv => hkey ?_, hnoted⟩
        rw [hat] at hv
        rw [Option.some.inj hv]
      · next hkey =>
        have hat' : m.entryAt q = some (query.key, kv.2) := by
          rw [hat, ← Classical.not_not.mp hkey]
        split
        · next hfix => exact ⟨rfl, hfix, FCode.isFound_found side, q, kv.2, hat'⟩
        · split
          · next hfound =>
            -- the key cannot be in a visited slot and in this one
            obtain ⟨p, hVp, _, _, v, hpat⟩ := hp.found hfound
            exact absurd (hrep.once hpat hat' ▸ hVp) hV
          · next hfound =>
            refine ⟨rfl, ⟨?_, ?_, ?_, ?_⟩, fun _ => .inl (FCode.isFound_found side)⟩
            · exact fun _ => ⟨q, .inr rfl, rfl, rfl, kv.2, hat'⟩
            · intro hf
              rw [FCode.isFound_found] at hf
              cases hf
            · intro hf
              rw [FCode.not_vacancy_of_found (FCode.isFound_found side)] at hf
              cases hf
            · intro hf
              rw [FCode.isFound_found] at hf
              cases hf

theorem visitBucket_runs (hw : WellPlaced H m) (hrep : Represents m.entryAt abs) {t : Nat}
    {query : Query K} {levels : List Nat} {side : Side} {base i level bucket : Nat}
    (hlevel : level = base + i) : ∀ (n j : Nat) (f : Find) (foundEmptyInB : Bool)
      (V : Slot → Prop), (∀ p, V p → p.level = level → p.bucket = bucket → p.slot < j) →
      (∀ p, V p → p.level ≤ base + i) → Pass m query.key base V f →
      (foundEmptyInB = true → f.Noted i) →
    (visitBucket H t query levels side i level bucket n j f foundEmptyInB).runs
      (fun v m' => m' = m ∧ VisitOk m query base (fun p => V p ∨
        p.level = level ∧ p.bucket = bucket ∧ j ≤ p.slot ∧ p.slot < j + n) i v) m := by
  intro n
  induction n with
  | zero =>
    intro j f foundEmptyInB V _ _ hp _
    refine ⟨rfl, hp.congr fun p => ⟨.inl, ?_⟩, fun h => (by cases h)⟩
    rintro (hVp | ⟨_, _, _, _⟩)
    · exact hVp
    · omega
  | succ n ih =>
    intro j f foundEmptyInB V hdone hlow hp hnoted
    rw [visitBucket, runs_bind]
    have hfresh : ¬ V ⟨level, bucket, j⟩ := fun hV => Nat.lt_irrefl j (hdone _ hV rfl rfl)
    refine runs_mono ?_ (visitSlot_runs hw hrep hfresh hlevel hp hnoted hlow)
    rintro v m' ⟨rfl, hv⟩
    cases v with
    | done f => exact ⟨rfl, hv⟩
    | retry f => exact hv.elim
    | next f foundEmptyInB =>
      refine runs_mono ?_ (ih (j + 1) f foundEmptyInB
        (fun p => V p ∨ p = ⟨level, bucket, j⟩) ?_ ?_ hv.1 hv.2)
      · rintro v m'' ⟨hm, hv⟩
        refine ⟨hm, ?_⟩
        have hset : ∀ p : Slot, ((V p ∨ p = ⟨level, bucket, j⟩) ∨
            p.level = level ∧ p.bucket = bucket ∧ j + 1 ≤ p.slot ∧ p.slot < j + 1 + n) ↔
            (V p ∨ p.level = level ∧ p.bucket = bucket ∧ j ≤ p.slot ∧
              p.slot < j + (n + 1)) := by
          rintro ⟨l, b, s⟩
          simp only [Slot.mk.injEq]
          constructor
          · rintro ((h | ⟨rfl, rfl, rfl⟩) | ⟨rfl, rfl, h1, h2⟩)
            · exact .inl h
            · exact .inr ⟨rfl, rfl, Nat.le_refl _, by omega⟩
            · exact .inr ⟨rfl, rfl, by omega, by omega⟩
          · rintro (h | ⟨rfl, rfl, h1, h2⟩)
            · exact .inl (.inl h)
            · rcases Nat.eq_or_lt_of_le h1 with rfl | h1
              · exact .inl (.inr ⟨rfl, rfl, rfl⟩)
              · exact .inr ⟨rfl, rfl, h1, by omega⟩
        cases v with
        | done f => exact hv
        | retry f => exact hv
        | next f foundEmptyInB => exact ⟨hv.1.congr hset, hv.2⟩
      · rintro p (hVp | rfl) hl hb
        · exact Nat.lt_succ_of_lt (hdone p hVp hl hb)
        · exact Nat.lt_succ_self j
      · rintro p (hVp | rfl)
        · exact hlow p hVp
        · exact Nat.le_of_eq hlevel

/-- The slots of a key in the levels from `lo` on, `n` of them. -/
def Table.Reads (H : Table K) (key : K) (lo n : Nat) (p : Slot) : Prop :=
  H.IsSlot key p ∧ lo ≤ p.level ∧ p.level < lo + n

theorem visitLevels_runs (hp2 : 2 ≤ H.hashpower) (hw : WellPlaced H m)
    (hrep : Represents m.entryAt abs) (t : Nat) {query : Query K} (levels : List Nat)
    {base : Nat} : ∀ (n i : Nat) (f : Find) (V : Slot → Prop),
      (∀ p, V p → p.level < base + i) → Pass m query.key base V f →
    (visitLevels H t query levels (List.range' (base + i) n) i f).runs
      (fun v m' => m' = m ∧ VisitOk m query base (fun p => V p ∨
        H.Reads query.key (base + i) n p) (i + n) v) m := by
  intro n
  induction n with
  | zero =>
    intro i f V _ hp
    refine ⟨rfl, hp.congr fun p => ⟨.inl, ?_⟩, fun h => (by cases h)⟩
    rintro (hVp | ⟨_, _, _⟩)
    · exact hVp
    · omega
  | succ n ih =>
    intro i f V hlow hp
    rw [List.range'_succ, visitLevels, runs_bind]
    refine runs_mono ?_ (visitBucket_runs hw hrep rfl assocNum 0 f false V
      (fun p hVp hl _ => absurd (hlow p hVp) (by omega))
      (fun p hVp => Nat.le_of_lt (hlow p hVp)) hp (fun h => (by cases h)))
    rintro v m' ⟨rfl, hv⟩
    cases v with
    | done f => exact ⟨rfl, hv⟩
    | retry f => exact hv.elim
    | next f _ =>
      rw [runs_bind]
      refine runs_mono ?_ (visitBucket_runs hw hrep rfl assocNum 0 f false _
        ?_ ?_ hv.1 (fun h => (by cases h)))
      · rintro v m'' ⟨rfl, hv⟩
        cases v with
        | done f => exact ⟨rfl, hv⟩
        | retry f => exact hv.elim
        | next f _ =>
          have hset : ∀ p : Slot, ((V p ∨ p.level = base + i ∧
              p.bucket = H.fIdx query.key (base + i) ∧ 0 ≤ p.slot ∧ p.slot < 0 + assocNum) ∨
              p.level = base + i ∧ p.bucket = H.sIdx query.key (base + i) ∧ 0 ≤ p.slot ∧
              p.slot < 0 + assocNum) ↔ (V p ∨ H.Reads query.key (base + i) 1 p) := by
            rintro ⟨l, b, s⟩
            simp only [Table.Reads, Table.IsSlot, Table.IsBucket, Nat.zero_add, Nat.zero_le,
              true_and]
            constructor
            · rintro ((h | ⟨rfl, rfl, h⟩) | ⟨rfl, rfl, h⟩)
              · exact .inl h
              · exact .inr ⟨⟨.inl rfl, h⟩, by omega, by omega⟩
              · exact .inr ⟨⟨.inr rfl, h⟩, by omega, by omega⟩
            · rintro (h | ⟨⟨hb, h⟩, h1, h2⟩)
              · exact .inl (.inl h)
              · obtain rfl : l = base + i := by omega
                rcases hb with rfl | rfl
                · exact .inl (.inr ⟨rfl, rfl, h⟩)
                · exact .inr ⟨rfl, rfl, h⟩
          refine runs_mono ?_ (ih (i + 1) f _ ?_ (hv.1.congr hset))
          · rintro v m' ⟨hm, hv⟩
            refine ⟨hm, ?_⟩
            have hset' : ∀ p : Slot, ((V p ∨ H.Reads query.key (base + i) 1 p) ∨
                H.Reads query.key (base + (i + 1)) n p) ↔
                (V p ∨ H.Reads query.key (base + i) (n + 1) p) := by
              intro p
              constructor
              · rintro ((h | ⟨hs, h1, h2⟩) | ⟨hs, h1, h2⟩)
                · exact .inl h
                · exact .inr ⟨hs, by omega, by omega⟩
                · exact .inr ⟨hs, by omega, by omega⟩
              · rintro (h | ⟨hs, h1, h2⟩)
                · exact .inl (.inl h)
                · by_cases hl : p.level = base + i
                  · exact .inl (.inr ⟨hs, by omega, by omega⟩)
                  · exact .inr ⟨hs, by omega, by omega⟩
            rw [show i + (n + 1) = i + 1 + n by omega]
            cases v with
            | done f => exact hv
            | retry f => exact hv
            | next f foundEmptyInB => exact ⟨hv.1.congr hset', hv.2⟩
          · rintro p (hVp | ⟨_, h1, h2⟩)
            · have := hlow p hVp
              omega
            · omega
      · rintro p (hVp | ⟨_, hb, _⟩) hl hb'
        · exact absurd (hlow p hVp) (by omega)
        · exact absurd (hb.symm.trans hb') (Table.fIdx_ne_sIdx hp2 _ _)
      · rintro p (hVp | ⟨hl, _⟩)
        · exact Nat.le_of_lt (hlow p hVp)
        · exact Nat.le_of_eq hl

/-- What `find` returns when it runs alone on the published snapshot: the key
is found, or the pass went over all slots the key may be in. -/
def FindOk (H : Table K) (m : Mem K T) (query : Query K) (f : Find) : Prop :=
  query.fixDup = false ∧ f.result.isFound = true ∧ (∃ q v, m.entryAt q = some (query.key, v)) ∨
    Pass m query.key m.cur.lastLevel (H.Reads query.key m.cur.lastLevel m.cur.span) f

theorem find_runs (hp2 : 2 ≤ H.hashpower) (hr : 1 ≤ H.retries) (hw : WellPlaced H m)
    (hrep : Represents m.entryAt abs) (hchain : m.cur.lastLevel ≤ m.cur.firstLevel)
    (htop : m.cur.firstLevel < m.levels) (hspan : m.cur.span ≤ maxLevel) (t : Nat)
    (query : Query K) :
    (find H t query m.metaPtr m.cur).runs (fun f m' => m' = m ∧ FindOk H m query f) m := by
  obtain ⟨n, hn⟩ := Nat.exists_eq_add_of_le' hr
  have hlen : m.cur.firstLevel + 1 - m.cur.lastLevel = m.cur.span := by
    rw [Meta.span]
    omega
  rw [find, hn, findLoop, runs_bind]
  refine runs_mono ?_ (collectLevels_runs htop maxLevel m.cur.lastLevel hchain
    (by rw [hlen]; exact hspan))
  rintro levels m' ⟨rfl, hlevels⟩
  rw [hlen] at hlevels
  rw [runs_bind]
  have hinit : Pass m' query.key m'.cur.lastLevel (fun _ => False) {} :=
    ⟨fun h => (by cases h), fun _ _ _ h => h.elim, fun h => (by cases h),
      fun _ _ h => h.elim⟩
  have hpass := visitLevels_runs hp2 hw hrep t levels m'.cur.span 0 {} _
    (fun _ h => h.elim) hinit
  rw [Nat.add_zero, ← hlevels] at hpass
  refine runs_mono ?_ hpass
  rintro v m'' ⟨rfl, hv⟩
  cases v with
  | done f => exact ⟨rfl, .inl hv⟩
  | retry f => exact hv.elim
  | next f _ =>
    simp only [runs_bind, runs_loadMeta, if_true]
    exact ⟨rfl, .inr (hv.1.congr fun p => ⟨fun h => h.resolve_left id, .inr⟩)⟩

theorem find_overflows (hchain : m.cur.lastLevel ≤ m.cur.firstLevel)
    (hspan : maxLevel < m.cur.span) (t : Nat) (query : Query K) (Q : Find → Mem K T → Prop) :
    ¬ (find H t query m.metaPtr m.cur).runs Q m := by
  rw [find]
  cases H.retries with
  | zero => exact id
  | succ n =>
    rw [findLoop, runs_bind]
    refine collectLevels_overflows maxLevel m.cur.lastLevel hchain ?_ _
    rw [Meta.span] at hspan
    omega

end Find

end ShmPcc.ClevelHash
