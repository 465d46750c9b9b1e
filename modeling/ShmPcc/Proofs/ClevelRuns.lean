import ShmPcc.Proofs.ClevelOutline
import ShmPcc.Proofs.ClevelMap

/-!
# Runs of the table with its rehasher

What becomes of an update, an erase, an insert and a search while the rehasher
moves the items of the bottom level upwards. None of the four is safe from it.

The rehasher reads the word of a slot, copies it to a level above and then clears
the slot with a plain store. An update that exchanges the word in between is
undone: the old word is copied, and the new one cleared. An erase in between
deletes the entry, and the rehasher copies the word that points to it. And an
insert that has chosen its slot from an old snapshot puts its word where the
rehasher has been already, or into a level that is dropped by then; the check
that it makes afterwards only looks at `is_resizing`.

So each result has a restriction on the runs it is about, and a run outside of it
in which it fails. The runs that fail fill a table of two levels, with keys whose
hashes are odd numbers: all of them have the same two buckets in each of the two
levels, and the seventeenth makes the table grow.
-/

namespace ShmPcc.ClevelHash

open Prog

variable {K T : Type} [DecidableEq K] {H : Table K}

abbrev Config (K T : Type) := Cfg Site (Mem K T) (Op K T) (Ret K T)

/-! ## Two restrictions -/

/-- Updates and erases have their keys to themselves and make their
compare-exchanges undisturbed. -/
def calmRuns (H : Table K) : Cond Site (Mem K T) (Op K T) where
  atCall _ op m := ∀ x ∈ m.ops, ¬ Clash op x.2
  atStep := Calm H

/-- There are no updates and no erases. -/
def insertsOnly : Cond Site (Mem K T) (Op K T) where
  atCall _ op m := op.exclusive = false ∧ ∀ x ∈ m.ops, x.2.exclusive = false
  atStep _ _ := True

/-- The same, and inserts only succeed in slots of levels that are left which the
rehasher is not done with. -/
def safeInserts : Cond Site (Mem K T) (Op K T) where
  atCall := insertsOnly.atCall
  atStep
    | .insertCas q, m => m.slots q = 0 → m.Safe q
    | _, _ => True

omit [DecidableEq K] in
theorem calmRuns_tame : Tame H (calmRuns H : Cond Site (Mem K T) (Op K T)) :=
  ⟨fun _ _ _ h => h, fun _ _ _ _ _ _ _ h => h⟩

omit [DecidableEq K] in
theorem insertsOnly_tame : Tame H (insertsOnly : Cond Site (Mem K T) (Op K T)) where
  free := by
    rintro t op m ⟨hop, hops⟩ x hx ⟨hclash | hclash, -⟩
    · rw [hop] at hclash
      cases hclash
    · rw [hops x hx] at hclash
      cases hclash
  calm := by
    rintro t op m ⟨hop, -⟩ hx
    rw [hop] at hx
    cases hx

omit [DecidableEq K] in
theorem safeInserts_tame : Tame H (safeInserts : Cond Site (Mem K T) (Op K T)) :=
  ⟨fun t op m h => insertsOnly_tame (H := H).free t op m h, fun t op m h hx _ _ _ => by
    rw [h.1] at hx
    cases hx⟩

omit [DecidableEq K] in
theorem safeInserts_safe : SafeInserts (safeInserts : Cond Site (Mem K T) (Op K T)) :=
  fun _ _ h => h

instance (op op' : Op K T) : Decidable (Clash op op') := inferInstanceAs (Decidable (_ ∧ _))

instance (l : Site) (m : Mem K T) : Decidable (Calm H l m) :=
  match l with
  | .updateCas q e => inferInstanceAs (Decidable (m.slots q = e → m.hold ≠ .none → q ≠ m.src))
  | .dupCas q e => inferInstanceAs (Decidable (m.slots q = e → m.hold.isHeld = true → q ≠ m.src))
  | .eraseCas q e | .dupDeleteCas q e => inferInstanceAs (Decidable (m.slots q = e →
      (m.hold.isHeld = true → q ≠ m.src) ∧ ∀ kv ∈ m.entries (addr (m.slots q)),
        ∀ p ∈ H.places kv.1 m.levels, p ≠ q → m.slots p ≠ m.slots q))
  | .metaLoad | .metaCas | .upLoad _ | .upCas _ | .slotLoad _ | .insertCas _ | .copyCas _
  | .slotClear _ | .entryLoad _ | .entryNew _ | .entryDelete _ | .expandBucket => .isTrue trivial

instance (t : Nat) (op : Op K T) (m : Mem K T) : Decidable ((calmRuns H).atCall t op m) :=
  inferInstanceAs (Decidable (∀ x ∈ m.ops, ¬ Clash op x.2))

instance (l : Site) (m : Mem K T) : Decidable ((calmRuns H).atStep l m) :=
  inferInstanceAs (Decidable (Calm H l m))

instance {K : Type} (t : Nat) (op : Op K T) (m : Mem K T) : Decidable (insertsOnly.atCall t op m) :=
  inferInstanceAs (Decidable (_ ∧ _))

instance {K : Type} (l : Site) (m : Mem K T) : Decidable (insertsOnly.atStep l m) := .isTrue trivial

instance {K : Type} (m : Mem K T) (p : Slot) : Decidable (m.Safe p) :=
  inferInstanceAs (Decidable (_ ∧ (_ → _)))

instance {K : Type} (t : Nat) (op : Op K T) (m : Mem K T) : Decidable (safeInserts.atCall t op m) :=
  inferInstanceAs (Decidable (insertsOnly.atCall t op m))

instance {K : Type} (l : Site) (m : Mem K T) : Decidable (safeInserts.atStep l m) :=
  match l with
  | .insertCas q => inferInstanceAs (Decidable (m.slots q = 0 → m.Safe q))
  | .metaLoad | .metaCas | .upLoad _ | .upCas _ | .slotLoad _ | .updateCas _ _ | .eraseCas _ _
  | .dupCas _ _ | .dupDeleteCas _ _ | .copyCas _ | .slotClear _ | .entryLoad _ | .entryNew _
  | .entryDelete _ | .expandBucket => .isTrue trivial

/-! ## A small table -/

/-- Two buckets in the bottom level. -/
def smallTable : Table Word := ⟨hash64shift, 2, 3⟩

def oddKey (j : Nat) : Word := unhash (BitVec.ofNat 64 (2 * j + 1))

def oddInsert (j : Nat) : Op Word Nat := .insert (oddKey j) j (BitVec.ofNat 64 (16 * (j + 1)))

/-- Inserts of thread 1, one after another. -/
def oddInserts (i n : Nat) : List (Nat × Op Word Nat) :=
  (List.range' i n).map fun j => (1, oddInsert j)

/-- A call and the next `n` accesses of its thread. -/
def callFor (t : Nat) (op : Op Word Nat) (n : Nat) : List (Act (Op Word Nat)) :=
  .call t op :: List.replicate n (.run t)

def emptyTable : Mem Word Nat := start fun _ => 0

theorem emptyTable_reach {C : Cond Site (Mem Word Nat) (Op Word Nat)} :
    (obj smallTable).Reach C Init (Cfg.init emptyTable) := .init ⟨_, rfl⟩

/-! ## Searches -/

section Searches

variable {c : Config K T} {k : K} {L : List (Op K T)} {R : T → Prop} {S : Prop} {m m' : Mem K T}

theorem search_returns (hi : Inv H m) (hr : 1 ≤ H.retries) (key : K) :
    (search H key).runs (fun _ m' => m' = m) m := by
  obtain ⟨n, hn⟩ := Nat.exists_eq_add_of_le' hr
  have hchain := hi.chain
  rw [search, runs_bind, runs_loadMeta, hn, searchLoop, runs_bind]
  refine runs_mono ?_ (searchLevels_runs hi.placed key m.cur hi.top m.cur.span
    m.cur.lastLevel 0 (by rw [Meta.span]; omega) (by rw [Meta.span]; omega))
  rintro r m' ⟨rfl, -, -⟩
  cases r with
  | some r => rfl
  | none =>
    simp only [runs_bind, runs_loadMeta, if_true]
    rfl

omit [DecidableEq K] in
theorem trail_le {j : Nat} (hj : c.trail[j]? = some m) : j ≤ c.trail.length - 1 := by
  have := (List.getElem?_eq_some_iff.mp hj).1
  omega

/-- What a search for the key answers. -/
def Tells (k : K) (R : T → Prop) (S : Prop) (r : Ret K T) : Prop :=
  (r.found = true → ∃ v, r.value = some (k, v) ∧ R v) ∧ (S → r.found = true)

omit [DecidableEq K] in
theorem Tells.known {v : T} {r : Ret K T} (hS : S) (h : Tells k (· = v) S r) :
    r.found = true ∧ r.value = some (k, v) := by
  obtain ⟨hgot, hf⟩ := h
  obtain ⟨_, hv, rfl⟩ := hgot (hf hS)
  exact ⟨hf hS, hv⟩

omit [DecidableEq K] in
theorem Answer.tells {r : Ret K T} (h : Answer k L R S r m) (hL : m.calls k = L) :
    Tells k R S r := by
  obtain ⟨hgot, hfound⟩ := (h.2 hL).2
  refine ⟨fun hf => ?_, hfound⟩
  obtain ⟨⟨_, v⟩, hv, rfl, hR⟩ := hgot hf
  exact ⟨v, hv, hR⟩

theorem search_alone (hp : 2 ≤ H.hashpower) (hr : 1 ≤ H.retries) (hi : Inv H m)
    (hs : Settled k (m.calls k) (Known k R S) m) {t : Nat} (ht : t ≠ 0)
    (hidle : ∀ x ∈ m.ops, x.1 ≠ t) :
    ∃ r m', (obj H).exec t (.search k) m = some (r, m') ∧ Tells k R S r := by
  have he : (obj H).enter t (.search k) m = some { m with ops := (t, .search k) :: m.ops } :=
    if_pos ⟨(beq_eq_false_iff_ne.mpr ht).symm, hidle⟩
  have hm : Move H t m { m with ops := (t, .search k) :: m.ops } :=
    Entered.move (entered (show enter t (.search k) m = some _ from he)) fun x _ => not_clash_of_target rfl
  have hwp : wp (quiet H (fun _ _ => True) t) (fun r m' => Answer k (m.calls k) R S r m')
      (search H k) { m with ops := (t, .search k) :: m.ops } :=
    search_wp hp (hs.move (fun hf hk => hk.move hp hi hm hf) hm)
  obtain ⟨r, m', hx, h, hans⟩ := Obj.exec_of_runs he (runs_of_wp (fun _ _ => trivial)
    (hm.inv hi) hwp (search_returns (hm.inv hi) hr k))
  subst h
  exact ⟨r, _, hx, Answer.tells hans rfl⟩

variable {C : Cond Site (Mem K T) (Op K T)} {hp : 2 ≤ H.hashpower} {hC : Tame H C}

theorem calls_later (h : (outline hp hC).Holds c) (k : K) {i j : Nat} (hij : i ≤ j)
    (hi : c.trail[i]? = some m) (hj : c.trail[j]? = some m') : m.calls k <+: m'.calls k :=
  h.evolves (E := fun a b => a.calls k <+: b.calls k) (fun _ => List.prefix_refl _)
    (fun _ _ _ => List.IsPrefix.trans) (fun _ _ hg => Move.calls hg k) hij hi hj

/-- What all moves keep while there are no further calls on the key. -/
theorem settled_later (h : (outline hp hC).Holds c) {X : Mem K T → Prop}
    (hX : ∀ {t m m'}, Inv H m → Move H t m m' → m.Foreign k t → X m → X m') {i j : Nat}
    (hij : i ≤ j) (hi : c.trail[i]? = some m) (hj : c.trail[j]? = some m')
    (hs : Settled k L X m) : Settled k L X m' :=
  h.evolves (E := fun a b => Settled k L X a → Settled k L X b) (fun _ => id)
    (fun _ _ _ hab hbd hs => hbd (hab hs))
    (fun hi _ hg hs => hs.move (hX hi hg) hg) hij hi hj hs

/-- A memory of the trail between two others in which the same calls were made. -/
theorem calls_between (h : (outline hp hC).Holds c) {j : Nat} (hj : c.trail[j]? = some m)
    (hle : L <+: m.calls k) (hcalls : c.mem.calls k = L) : m.calls k = L := by
  have hpre := calls_later h k (trail_le hj) hj h.trail_mem
  rw [hcalls] at hpre
  exact hpre.eq_of_length_le hle.length_le

/-- The searches that start after memory `j` of the trail, in which the item of
the key is known, and the search that starts now. -/
theorem searches_after (h : (outline hp hC).Holds c) (hr : 1 ≤ H.retries)
    (hcalls : c.mem.calls k = L) {j : Nat} (hj : c.trail[j]? = some m)
    (hs : Settled k L (Known k R S) m) :
    (∀ t, t ≠ 0 → (∀ x ∈ c.mem.ops, x.1 ≠ t) →
      ∃ r m', (obj H).exec t (.search k) c.mem = some (r, m') ∧ Tells k R S r) ∧
    ∀ s ∈ c.hist, s.op = .search k → j ≤ s.start → Tells k R S s.ret := by
  have hlater : ∀ {j' m'}, j ≤ j' → c.trail[j']? = some m' → Settled k L (Known k R S) m' :=
    fun hij hj' => settled_later h (fun hi hm hf hk => hk.move hp hi hm hf) hij hj hj' hs
  constructor
  · intro t ht hidle
    have hnow := hlater (trail_le hj) h.trail_mem
    rw [← hcalls] at hnow
    exact search_alone hp hr h.mem_inv hnow ht hidle
  · intro s hmem hop hstart
    obtain ⟨m₀, m₁, h0, h1, _, hpost⟩ := h.hist s hmem
    simp only [outline, Outline.ofMoves, hop] at hpost
    have hs0 := hlater hstart h0
    have hL0 := calls_between h h0 hs0.1 hcalls
    obtain ⟨hforeign, hknown⟩ := hs0.2 hL0
    have hans := hpost.2 hforeign
    rw [hL0] at hans
    obtain ⟨hgot, hfound⟩ := hans.tells (calls_between h h1 hans.1 hcalls)
    refine ⟨fun hf => ?_, fun hS => hfound (hknown.safe hS)⟩
    obtain ⟨v, hv, q, hq, he⟩ := hgot hf
    refine ⟨v, hv, hknown.good q _ v hq ⟨rfl, v, he⟩ (entryAt_eq_some.mp he).2⟩

end Searches

/-! ## Main results -/

section Main

variable {c : Config K T} {k : K} {v₀ v : T} {a₀ a : Word}

/-- The calls on a key when the last of them is made. -/
theorem calls_at_start {C : Cond Site (Mem K T) (Op K T)} {hp : 2 ≤ H.hashpower} {hC : Tame H C}
    (h : (outline hp hC).Holds c) {op : Op K T} (before : List (Op K T)) {i : Nat} {m₀ : Mem K T}
    (hcalls : c.mem.calls k = before ++ [op]) (hnew : op ∉ before) (h0 : c.trail[i]? = some m₀)
    (hmem : op ∈ m₀.calls k) : m₀.calls k = before ++ [op] := by
  have hpre := calls_later h k (trail_le h0) h0 h.trail_mem
  rw [hcalls] at hpre
  exact (List.prefix_concat_iff.mp hpre).resolve_right fun hpre => hnew (hpre.subset hmem)

/-- No update is lost to rehashing: after an update that found its key, which
one insert had put into a slot that the rehasher was not done with, every search
returns the new value. -/
theorem update_survives_rehashing (hp : 2 ≤ H.hashpower) (hr : 1 ≤ H.retries)
    (h : (obj H).Reach (calmRuns H) Init c)
    (hcalls : c.mem.calls k = [.insert k v₀ a₀, .update k v a])
    {u : Call (Op K T) (Ret K T)} (hu : u ∈ c.hist) (hop : u.op = .update k v a)
    (hfound : u.ret.found = true) (hkeeps : ∀ m₀, c.trail[u.start]? = some m₀ → m₀.Keeps k) :
    (∀ t, t ≠ 0 → (∀ x ∈ c.mem.ops, x.1 ≠ t) → ∃ r m,
      (obj H).exec t (.search k) c.mem = some (r, m) ∧ r.found = true ∧ r.value = some (k, v)) ∧
    ∀ s ∈ c.hist, s.op = .search k → u.stop < s.start →
      s.ret.found = true ∧ s.ret.value = some (k, v) := by
  have hH := holds_of_reach hp calmRuns_tame h
  obtain ⟨m₀, m₁, h0, h1, _, hpost⟩ := hH.hist u hu
  simp only [outline, Outline.ofMoves, hop] at hpost
  have hcalls₀ := calls_at_start hH [.insert k v₀ a₀] hcalls (by simp) h0
    (hpost.1 k rfl)
  have hsettled := hpost.2 ⟨v₀, a₀, hcalls₀⟩ (hkeeps m₀ h0) hfound
  rw [hcalls₀] at hsettled
  obtain ⟨hnow, hlater⟩ := searches_after hH hr hcalls h1 hsettled
  refine ⟨fun t ht hidle => ?_, fun s hs hsop hlt => ?_⟩
  · obtain ⟨r, m, hx, hr⟩ := hnow t ht hidle
    exact ⟨r, m, hx, hr.known trivial⟩
  · exact (hlater s hs hsop (Nat.le_of_lt hlt)).known trivial

omit [DecidableEq K] in
theorem Mem.keeps_of_entryAt {m : Mem K T} {p : Slot} (hs : m.Safe p)
    (he : m.entryAt p = some (k, v)) : m.Keeps k := ⟨p, _, hs, rfl, v, he⟩

/-- The rehasher makes a round in the middle of an update. -/
def updateAndResize : List (Act (Op Word Nat)) :=
  callFor 1 (oddInsert 0) 24 ++ callFor 1 (.update (oddKey 0) 7 0x1000) 10 ++
  callFor 0 .resize 3 ++ List.replicate 15 (.run 1) ++ callFor 2 (.search (oddKey 0)) 13

theorem updateAndResize_run : ((obj smallTable).runUnder (calmRuns smallTable) updateAndResize
    (Cfg.init emptyTable)).any (fun c => c.hist =
      [⟨1, oddInsert 0, {}, 1, 25⟩, ⟨0, .resize, {}, 37, 40⟩,
       ⟨1, .update (oddKey 0) 7 0x1000, { found := true }, 26, 55⟩,
       ⟨2, .search (oddKey 0), ⟨true, 1, 1, 0, false, 0, some (oddKey 0, 7)⟩, 56, 69⟩] ∧
    c.mem.calls (oddKey 0) = [oddInsert 0, .update (oddKey 0) 7 0x1000] ∧
    c.trail[26]?.all fun m => m.Safe ⟨1, 1, 0⟩ ∧ m.entryAt ⟨1, 1, 0⟩ = some (oddKey 0, 0)) := by
  decide +kernel

theorem update_survives_updateAndResize : ∃ (c : Config Word Nat) (u : _),
    (obj smallTable).Reach (calmRuns smallTable) Init c ∧
    u ∈ c.hist ∧ u.op = .update (oddKey 0) 7 0x1000 ∧
    ∀ s ∈ c.hist, s.op = .search (oddKey 0) → u.stop < s.start →
      s.ret.found = true ∧ s.ret.value = some (oddKey 0, 7) := by
  obtain ⟨c, hreach, hhist, hcalls, htrail⟩ := emptyTable_reach.of_any updateAndResize_run
  have hu : ⟨1, .update (oddKey 0) 7 0x1000, { found := true }, 26, 55⟩ ∈ c.hist := by
    simp only [hhist, List.mem_cons, true_or, or_true]
  refine ⟨c, _, hreach, hu, rfl, (update_survives_rehashing (by decide) (by decide) hreach hcalls hu
    rfl rfl ?_).2⟩
  intro m₀ h0
  rw [h0] at htrail
  obtain ⟨hsafe, hentry⟩ := of_decide_eq_true htrail
  exact Mem.keeps_of_entryAt hsafe hentry

/-- The rehasher has read the word of the slot; the update exchanges it, looks
for its item once more, finds its own word and returns; then the rehasher copies
the word it has read and clears the slot. -/
def lostUpdate : List (Act (Op Word Nat)) :=
  callFor 0 .resize 6 ++ callFor 1 (.update (oddKey 8) 100 0x1000) 95 ++
  List.replicate 31 (.run 0)

theorem lostUpdate_run : ((obj smallTable).execAll (oddInserts 0 17) emptyTable).any fun x =>
    ((obj smallTable).runUnder Cond.free lostUpdate (Cfg.init x.2)).any fun d =>
      x.1[8]? = some { found := false } ∧
      d.hist = [⟨1, .update (oddKey 8) 100 0x1000, { found := true }, 8, 103⟩,
        ⟨0, .resize, {}, 1, 134⟩] ∧
      d.mem.ops = [] ∧ d.mem.calls (oddKey 8) = [oddInsert 8, .update (oddKey 8) 100 0x1000] ∧
      ((obj smallTable).exec 1 (.search (oddKey 8)) d.mem).any fun s =>
        s.1.value = some (oddKey 8, 8) := by
  decide +kernel

theorem oddInserts_reach {rs : List (Ret Word Nat)} {m : Mem Word Nat}
    (hx : (obj smallTable).execAll (oddInserts 0 17) emptyTable = some (rs, m))
    (hr : rs[8]? = some { found := false }) : ∃ c : Config Word Nat, (obj smallTable).Reach Cond.free Init c ∧
      c.mem = m ∧ (∀ t, c.thr t = none) ∧
      ∃ i ∈ c.hist, i.op = oddInsert 8 ∧ i.ret.found = false := by
  have hfree : ∀ (ops : List (Nat × Op Word Nat)) m, (obj smallTable).Along
      (Cond.free : Cond Site (Mem Word Nat) (Op Word Nat)).atCall ops m := by
    intro ops
    induction ops with
    | nil => exact fun _ => trivial
    | cons x rest ih => exact fun _ => ⟨trivial, fun _ _ => ih _⟩
  obtain ⟨c, new, hc, hm, hthr, hhist, hnew⟩ := Obj.Reach.execAll
    (fun _ _ => trivial) emptyTable_reach (fun _ _ => rfl)
    (hfree _ _) hx
  have hmem : ((1, oddInsert 8), ({ found := false } : Ret Word Nat)) ∈ (oddInserts 0 17).zip rs :=
    List.mem_of_getElem? (List.getElem?_zip_eq_some.mpr ⟨rfl, hr⟩)
  rw [← hnew] at hmem
  obtain ⟨i, hi, heq⟩ := List.mem_map.mp hmem
  simp only [Prod.mk.injEq] at heq
  refine ⟨c, hc, hm, fun t => by rw [hthr]; rfl, i, ?_, heq.1.2, by rw [heq.2]⟩
  rw [hhist]
  exact List.mem_append_right _ hi

/-- The update returns that it found the key, and the search after it still
finds the old value. -/
theorem update_lost_to_rehashing : ∃ (c : Config Word Nat) (i u : Call (Op Word Nat) (Ret Word Nat)),
    (obj smallTable).Reach Cond.free Init c ∧ c.mem.ops = [] ∧
    c.mem.calls (oddKey 8) = [oddInsert 8, .update (oddKey 8) 100 0x1000] ∧
    i ∈ c.hist ∧ i.op = oddInsert 8 ∧ i.ret.found = false ∧ i.stop < u.start ∧
    u ∈ c.hist ∧ u.op = .update (oddKey 8) 100 0x1000 ∧ u.ret.found = true ∧
    ∃ r m, (obj smallTable).exec 1 (.search (oddKey 8)) c.mem = some (r, m) ∧
      r.value = some (oddKey 8, 8) := by
  obtain ⟨⟨rs, m⟩, hx, hrest⟩ := (Option.any_eq_true _ _).mp lostUpdate_run
  obtain ⟨d, hd, hv⟩ := (Option.any_eq_true _ _).mp hrest
  obtain ⟨hr, hhist, hops, hcalls, hsearch⟩ := of_decide_eq_true hv
  obtain ⟨⟨r, m'⟩, hs, hvalue⟩ := (Option.any_eq_true _ _).mp hsearch
  obtain ⟨c, hc, rfl, hidle, i, hi, hiop, hiret⟩ := oddInserts_reach hx hr
  have hlt := hc.stop_lt i hi
  refine ⟨c.after d, i, ⟨1, .update (oddKey 8) 100 0x1000, { found := true },
    c.trail.length - 1 + 8, c.trail.length - 1 + 103⟩, hc.after hidle hd, hops, hcalls,
    List.mem_append_left _ hi, hiop, hiret, by dsimp only; omega,
    List.mem_append_right _ ?_, rfl, rfl, r, m', hs, of_decide_eq_true hvalue⟩
  rw [hhist]
  exact .head _

/-- No erased key comes back: after an erase that found its key, which one
insert had put into the table, no slot holds the key and no search finds it. -/
theorem erased_stays_erased (hp : 2 ≤ H.hashpower) (hr : 1 ≤ H.retries)
    (h : (obj H).Reach (calmRuns H) Init c)
    (hcalls : c.mem.calls k = [.insert k v₀ a₀, .erase k])
    {e : Call (Op K T) (Ret K T)} (he : e ∈ c.hist) (hop : e.op = .erase k)
    (hfound : e.ret.found = true) :
    (∀ q, c.mem.slots q ≠ 0 → ∃ kv, c.mem.entryAt q = some kv ∧ kv.1 ≠ k) ∧
    (∀ t, t ≠ 0 → (∀ x ∈ c.mem.ops, x.1 ≠ t) → ∃ r m,
      (obj H).exec t (.search k) c.mem = some (r, m) ∧ r.found = false) ∧
    ∀ s ∈ c.hist, s.op = .search k → e.stop < s.start → s.ret.found = false := by
  have hH := holds_of_reach hp calmRuns_tame h
  obtain ⟨m₀, m₁, h0, h1, _, hpost⟩ := hH.hist e he
  simp only [outline, Outline.ofMoves, hop] at hpost
  have hcalls₀ := calls_at_start hH [.insert k v₀ a₀] hcalls (by simp) h0
    (hpost.1 k rfl)
  have hsettled := hpost.2 ⟨v₀, a₀, hcalls₀⟩ hfound
  rw [hcalls₀] at hsettled
  have htells : ∀ {r : Ret K T}, Tells k (fun _ => False) False r → r.found = false := by
    rintro r ⟨hgot, -⟩
    refine Bool.eq_false_iff.mpr fun hf => ?_
    obtain ⟨_, _, h⟩ := hgot hf
    exact h
  have hkept : ∀ {t} {m m' : Mem K T}, Inv H m → Move H t m m' → m.Foreign k t →
      (∀ q w, ¬ m.At k q w) → ∀ q w, ¬ m'.At k q w := by
    intro t m m' hi hm hf hno q w ha
    rcases hm.at_origin hi hf ha with ha | ⟨ha, _⟩
    · exact hno _ _ ha
    · exact hno _ _ ha
  obtain ⟨hnow, hlater⟩ := searches_after hH hr hcalls h1 (hsettled.imp fun hno =>
    (⟨fun q w _ _ ha _ => hno q w ha, False.elim⟩ : Known k (fun _ => False) False m₁))
  refine ⟨fun q hq => ?_, fun t ht hidle => ?_, fun s hs hsop hlt => ?_⟩
  · obtain ⟨kv, hkv⟩ := hH.mem_inv.placed.entryAt_isSome hq
    refine ⟨kv, hkv, fun hk => ?_⟩
    have hend := settled_later hH hkept (trail_le h1) h1 hH.trail_mem hsettled
    exact (hend.2 hcalls).2 q _ ⟨rfl, kv.2, by rw [hkv, ← hk]⟩
  · obtain ⟨r, m, hx, hr⟩ := hnow t ht hidle
    exact ⟨r, m, hx, htells hr⟩
  · exact htells (hlater s hs hsop (Nat.le_of_lt hlt))

/-- The rehasher makes a round in the middle of an erase. -/
def eraseAndResize : List (Act (Op Word Nat)) :=
  callFor 1 (oddInsert 0) 24 ++ callFor 1 (.erase (oddKey 0)) 5 ++ callFor 0 .resize 3 ++
  List.replicate 20 (Act.run 1) ++ callFor 2 (.search (oddKey 0)) 21

theorem eraseAndResize_run : ((obj smallTable).runUnder (calmRuns smallTable) eraseAndResize
    (Cfg.init emptyTable)).any fun c => c.hist =
      [⟨1, oddInsert 0, {}, 1, 25⟩, ⟨0, .resize, {}, 32, 35⟩,
       ⟨1, .erase (oddKey 0), { found := true }, 26, 55⟩, ⟨2, .search (oddKey 0), {}, 56, 77⟩] ∧
    c.mem.calls (oddKey 0) = [oddInsert 0, .erase (oddKey 0)] := by decide +kernel

theorem erased_stays_erased_eraseAndResize : ∃ (c : Config Word Nat) (e : _),
    (obj smallTable).Reach (calmRuns smallTable) Init c ∧
    e ∈ c.hist ∧ e.op = .erase (oddKey 0) ∧
    ∀ s ∈ c.hist, s.op = .search (oddKey 0) → e.stop < s.start → s.ret.found = false := by
  obtain ⟨c, hreach, hhist, hcalls⟩ := emptyTable_reach.of_any eraseAndResize_run
  have he : ⟨1, .erase (oddKey 0), { found := true }, 26, 55⟩ ∈ c.hist := by
    simp only [hhist, List.mem_cons, true_or, or_true]
  exact ⟨c, _, hreach, he, rfl, (erased_stays_erased (by decide) (by decide) hreach hcalls he rfl
    rfl).2.2⟩

/-- The rehasher has read the word of the slot and the key behind it; the erase
takes the word out, deletes the entry and returns; then the rehasher copies the
word. -/
def eraseUndone : List (Act (Op Word Nat)) :=
  callFor 0 .resize 7 ++ callFor 1 (.erase (oddKey 8)) 50 ++ List.replicate 30 (.run 0)

theorem eraseUndone_run : ((obj smallTable).execAll (oddInserts 0 17) emptyTable).any fun x =>
    ((obj smallTable).runUnder Cond.free eraseUndone (Cfg.init x.2)).any fun d =>
      x.1[8]? = some { found := false } ∧
      d.hist = [⟨1, .erase (oddKey 8), { found := true }, 9, 59⟩, ⟨0, .resize, {}, 1, 89⟩] ∧
      d.mem.ops = [] ∧ d.mem.calls (oddKey 8) = [oddInsert 8, .erase (oddKey 8)] ∧
      d.mem.cur = ⟨2, 0, true⟩ ∧
      d.mem.slots ⟨2, 4, 0⟩ = setPartial 0x90 (smallTable.par (oddKey 8)) ∧
      ((obj smallTable).exec 1 (.search (oddKey 8)) d.mem).isNone := by
  decide +kernel

/-- The erase returns that it found the key, and the word of its entry is in a
slot of the top level, while the entry is gone: a search for the key follows the
word and does not return. -/
theorem erased_comes_back : ∃ (c : Config Word Nat) (i e : Call (Op Word Nat) (Ret Word Nat)),
    (obj smallTable).Reach Cond.free Init c ∧ c.mem.ops = [] ∧
    c.mem.calls (oddKey 8) = [oddInsert 8, .erase (oddKey 8)] ∧
    i ∈ c.hist ∧ i.op = oddInsert 8 ∧ i.ret.found = false ∧ i.stop < e.start ∧
    e ∈ c.hist ∧ e.op = .erase (oddKey 8) ∧ e.ret.found = true ∧
    (∃ q, c.mem.cur.lastLevel ≤ q.level ∧ q.level ≤ c.mem.cur.firstLevel ∧
      c.mem.slots q = setPartial 0x90 (smallTable.par (oddKey 8))) ∧
    (obj smallTable).exec 1 (.search (oddKey 8)) c.mem = none := by
  obtain ⟨⟨rs, m⟩, hx, hrest⟩ := (Option.any_eq_true _ _).mp eraseUndone_run
  obtain ⟨d, hd, hv⟩ := (Option.any_eq_true _ _).mp hrest
  obtain ⟨hr, hhist, hops, hcalls, hcur, hslot, hsearch⟩ := of_decide_eq_true hv
  obtain ⟨c, hc, rfl, hidle, i, hi, hiop, hiret⟩ := oddInserts_reach hx hr
  have hlt := hc.stop_lt i hi
  refine ⟨c.after d, i, ⟨1, .erase (oddKey 8), { found := true },
    c.trail.length - 1 + 9, c.trail.length - 1 + 59⟩, hc.after hidle hd, hops, hcalls,
    List.mem_append_left _ hi, hiop, hiret, by dsimp only; omega,
    List.mem_append_right _ ?_, rfl, rfl, ⟨⟨2, 4, 0⟩, ?_, ?_, hslot⟩,
    Option.isNone_iff_eq_none.mp hsearch⟩
  · rw [hhist]
    exact .head _
  · rw [show (c.after d).mem.cur = _ from hcur]
    exact Nat.zero_le _
  · rw [show (c.after d).mem.cur = _ from hcur]

/-- A search never misses a key that is there: after an insert has returned, a
search that starts while the key is in a slot that the rehasher is not done with
returns its value. -/
theorem search_never_misses (hp : 2 ≤ H.hashpower) (hr : 1 ≤ H.retries)
    (h : (obj H).Reach insertsOnly Init c) (hcalls : c.mem.calls k = [.insert k v a])
    {i : Call (Op K T) (Ret K T)} (hi : i ∈ c.hist) (hop : i.op = .insert k v a) :
    (∀ s ∈ c.hist, s.op = .search k → i.stop < s.start →
      (∀ m₀, c.trail[s.start]? = some m₀ → m₀.Keeps k) →
      s.ret.found = true ∧ s.ret.value = some (k, v)) ∧
    (c.mem.Keeps k → ∀ t, t ≠ 0 → (∀ x ∈ c.mem.ops, x.1 ≠ t) → ∃ r m,
      (obj H).exec t (.search k) c.mem = some (r, m) ∧ r.found = true ∧ r.value = some (k, v)) := by
  have hH := holds_of_reach hp insertsOnly_tame h
  obtain ⟨m₀, m₁, h0, h1, _, hpost⟩ := hH.hist i hi
  simp only [outline, Outline.ofMoves, hop] at hpost
  have hcalls₀ := calls_at_start hH [] hcalls (by simp) h0 (hpost.1 k rfl)
  have hsettled := hpost.2 hcalls₀
  -- the insert is the only call that made an entry for the key
  have hknown : ∀ {j m}, i.stop ≤ j → c.trail[j]? = some m →
      Settled k [.insert k v a] (Known k (· = v) (m.Keeps k)) m := by
    intro j m hle hj
    have hs : Settled k [.insert k v a] (fun _ => True) m :=
      settled_later hH (fun _ _ _ h => h) hle h1 hj (hsettled.imp fun _ => trivial)
    refine ⟨hs.1, fun hL => ⟨(hs.2 hL).1, fun q w u _ _ hu => ?_, id⟩⟩
    obtain ⟨op, hop, hc⟩ := (hH.inv m (List.mem_of_getElem? hj)).made _ _ hu
    rw [hL, List.mem_singleton] at hop
    subst hop
    cases hc
    rfl
  refine ⟨fun s hs hsop hlt hkeeps => ?_, fun hkeeps t ht hidle => ?_⟩
  · obtain ⟨m, _, hm, _⟩ := hH.hist s hs
    exact ((searches_after hH hr hcalls hm
      (hknown (Nat.le_of_lt hlt) hm)).2 s hs hsop (Nat.le_refl _)).known (hkeeps m hm)
  · obtain ⟨r, m, hx, hr⟩ := (searches_after hH hr hcalls hH.trail_mem
      (hknown (trail_le h1) hH.trail_mem)).1 t ht hidle
    exact ⟨r, m, hx, hr.known hkeeps⟩

/-- An insert of another key and a round of the rehasher in the middle of a
search. -/
def searchAndInsert : List (Act (Op Word Nat)) :=
  callFor 1 (oddInsert 0) 24 ++ callFor 2 (.search (oddKey 0)) 4 ++ callFor 1 (oddInsert 1) 25 ++
  callFor 0 .resize 3 ++ List.replicate 9 (Act.run 2)

theorem searchAndInsert_run : ((obj smallTable).runUnder insertsOnly searchAndInsert
    (Cfg.init emptyTable)).any fun c => c.hist =
      [⟨1, oddInsert 0, {}, 1, 25⟩, ⟨1, oddInsert 1, {}, 31, 56⟩, ⟨0, .resize, {}, 57, 60⟩,
       ⟨2, .search (oddKey 0), ⟨true, 1, 1, 0, false, 0, some (oddKey 0, 0)⟩, 26, 69⟩] ∧
    c.mem.calls (oddKey 0) = [oddInsert 0] ∧
    c.trail[26]?.all fun m => m.Safe ⟨1, 1, 0⟩ ∧ m.entryAt ⟨1, 1, 0⟩ = some (oddKey 0, 0) := by
  decide +kernel

theorem search_never_misses_searchAndInsert : ∃ (c : Config Word Nat) (s : _),
    (obj smallTable).Reach insertsOnly Init c ∧
    s ∈ c.hist ∧ s.op = .search (oddKey 0) ∧ s.ret.found = true ∧
    s.ret.value = some (oddKey 0, 0) := by
  obtain ⟨c, hreach, hhist, hcalls, htrail⟩ := emptyTable_reach.of_any searchAndInsert_run
  have hi : ⟨1, oddInsert 0, {}, 1, 25⟩ ∈ c.hist := by
    simp only [hhist, List.mem_cons, true_or]
  have hs : ⟨2, .search (oddKey 0), ⟨true, 1, 1, 0, false, 0, some (oddKey 0, 0)⟩, 26, 69⟩ ∈ c.hist := by
    simp only [hhist, List.mem_cons, true_or, or_true]
  refine ⟨c, _, hreach, hs, rfl, (search_never_misses (by decide) (by decide) hreach hcalls hi
    rfl).1 _ hs rfl (by decide) ?_⟩
  intro m₀ h0
  rw [h0] at htrail
  obtain ⟨hsafe, hentry⟩ := of_decide_eq_true htrail
  exact Mem.keeps_of_entryAt hsafe hentry

/-! An insert has chosen a slot of the bottom level and is about to put its word
there. Meanwhile the table fills up and grows, and the rehasher empties the
bottom level and drops it; then the insert finds its slot still empty, and
`is_resizing` false again. -/

/-- Nothing runs, and the insert is the only call on its key; no slot of the key
in the two levels that are left holds it, and a search does not find it. -/
def LostInsert (m : Mem Word Nat) : Prop :=
  m.ops = [] ∧ m.calls (oddKey 8) = [oddInsert 8] ∧ m.cur = ⟨2, 1, false⟩ ∧
    (∀ q ∈ smallTable.places (oddKey 8) 3, 1 ≤ q.level →
      (m.entryAt q).all fun kv => kv.1 ≠ oddKey 8) ∧
    ((obj smallTable).exec 1 (.search (oddKey 8)) m).any fun s => s.1.found = false

instance (m : Mem Word Nat) : Decidable (LostInsert m) := inferInstanceAs (Decidable (_ ∧ _))

/-- What happens between the two halves of the insert. -/
def growAndDrop : List (Nat × Op Word Nat) := oddInserts 9 9 ++ [(0, .resize), (0, .resize)]

theorem lostInsert_run : ((obj smallTable).execAll (oddInserts 0 8) emptyTable).any fun x =>
    ((obj smallTable).runUnder insertsOnly (callFor 2 (oddInsert 8) 29) (Cfg.init x.2)).any
    fun d => ((obj smallTable).execAll growAndDrop d.mem).any fun y => (d.thr 2).any fun a =>
    (a.code.exec y.2).any fun z =>
      (obj smallTable).Along insertsOnly.atCall (oddInserts 0 8) emptyTable ∧
      (obj smallTable).Along insertsOnly.atCall growAndDrop d.mem ∧
      (d.thr 0).isNone ∧ (d.thr 1).isNone ∧ a.op = oddInsert 8 ∧ z.1 = { found := false } ∧
      LostInsert ((obj smallTable).leave 2 (oddInsert 8) { found := false } z.2) := by
  decide +kernel

theorem lostInsert_reach : ∃ (c : Config Word Nat) (i : Call (Op Word Nat) (Ret Word Nat)),
    (obj smallTable).Reach insertsOnly Init c ∧ i ∈ c.hist ∧ i.op = oddInsert 8 ∧
    i.ret.found = false ∧ LostInsert c.mem := by
  obtain ⟨⟨rs, m⟩, hx, hrest⟩ := (Option.any_eq_true _ _).mp lostInsert_run
  obtain ⟨d, hd, hrest⟩ := (Option.any_eq_true _ _).mp hrest
  obtain ⟨⟨rs', m'⟩, hy, hrest⟩ := (Option.any_eq_true _ _).mp hrest
  obtain ⟨a, ha, hrest⟩ := (Option.any_eq_true _ _).mp hrest
  obtain ⟨⟨z, m''⟩, hz, hv⟩ := (Option.any_eq_true _ _).mp hrest
  obtain ⟨halong, halong', h0, h1, hop, hret, hlost⟩ := of_decide_eq_true hv
  have hK : ∀ l m, (insertsOnly : Cond Site (Mem Word Nat) (Op Word Nat)).atStep l m :=
    fun _ _ => trivial
  obtain ⟨c, _, hc, rfl, hthr, _⟩ := Obj.Reach.execAll hK
    emptyTable_reach (fun _ _ => rfl) halong hx
  have hidle : ∀ t, c.thr t = none := fun t => by rw [hthr]; rfl
  have hc₁ := hc.after hidle hd
  have hfree : ∀ x ∈ growAndDrop, (c.after d).thr x.1 = none := by
    intro x hmem
    have hx : x.1 = 1 ∨ x.1 = 0 := (by decide : ∀ x ∈ growAndDrop, x.1 = 1 ∨ x.1 = 0) x hmem
    rcases hx with hx | hx
    · simp only [Cfg.after, hx, Option.isNone_iff_eq_none.mp h1, Option.map_none]
    · simp only [Cfg.after, hx, Option.isNone_iff_eq_none.mp h0, Option.map_none]
  obtain ⟨c₂, _, hc₂, rfl, hthr₂, _⟩ := Obj.Reach.execAll hK hc₁ hfree halong' hy
  have ha₂ : c₂.thr 2 = some { a with start := c.trail.length - 1 + a.start } := by
    rw [hthr₂]
    simp only [Cfg.after, ha, Option.map_some]
  obtain ⟨c₃, stop, hc₃, hmem, hhist⟩ := Obj.Reach.runs_alone hK hc₂ ha₂ hz
  subst hret
  rw [hop] at hmem hhist
  refine ⟨c₃, ⟨2, oddInsert 8, { found := false }, c.trail.length - 1 + a.start, stop⟩, hc₃,
    ?_, rfl, rfl, by rw [hmem]; exact hlost⟩
  rw [hhist]
  exact List.mem_append_right _ (.head _)

/-- The insert has returned, and the search after it does not find the key. -/
theorem search_misses_lost_insert : ∃ (c : Config Word Nat)
    (i : Call (Op Word Nat) (Ret Word Nat)), (obj smallTable).Reach insertsOnly Init c ∧
    c.mem.ops = [] ∧ c.mem.calls (oddKey 8) = [oddInsert 8] ∧ i ∈ c.hist ∧ i.op = oddInsert 8 ∧
    i.ret.found = false ∧ ∃ r m, (obj smallTable).exec 1 (.search (oddKey 8)) c.mem = some (r, m) ∧
      r.found = false := by
  obtain ⟨c, i, hc, hi, hop, hret, hops, hcalls, _, _, hsearch⟩ := lostInsert_reach
  obtain ⟨⟨r, m⟩, hs, hfound⟩ := (Option.any_eq_true _ _).mp hsearch
  exact ⟨c, i, hc, hops, hcalls, hi, hop, hret, r, m, hs, of_decide_eq_true hfound⟩

/-- No insert is lost to rehashing where inserts only succeed in slots that the
rehasher is not done with: after an insert has returned, its entry is in a level
that is left. -/
theorem insert_survives_rehashing (hp : 2 ≤ H.hashpower)
    (h : (obj H).Reach safeInserts Init c) (hcalls : c.mem.calls k = [.insert k v a])
    {i : Call (Op K T) (Ret K T)} (hi : i ∈ c.hist) (hop : i.op = .insert k v a)
    (hfound : i.ret.found = false) :
    ∃ q, c.mem.cur.lastLevel ≤ q.level ∧ q.level ≤ c.mem.cur.firstLevel ∧
      addr (c.mem.slots q) = a ∧ c.mem.entryAt q = some (k, v) := by
  have hH := holds_of_reach hp safeInserts_tame h
  obtain ⟨m₀, m₁, h0, h1, _, hpost⟩ := hH.hist i hi
  simp only [outline, Outline.ofMoves, hop] at hpost
  have hcalls₀ := calls_at_start hH [] hcalls (by simp) h0 (hpost.1 k rfl)
  have hsettled : Settled k [.insert k v a] (fun m => m.Keeps k) m₁ :=
    (hpost.2 hcalls₀).imp fun hkeeps => hkeeps safeInserts_safe hfound
  have hnow := settled_later hH (fun hi hm hf hk => hk.move hp hi hm hf) (trail_le h1) h1
    hH.trail_mem hsettled
  obtain ⟨p, w, hsafe, hw, u, hu⟩ := (hnow.2 hcalls).2
  obtain ⟨hne, he⟩ := entryAt_eq_some.mp hu
  obtain ⟨op, hmade, hc⟩ := hH.mem_inv.made _ _ he
  rw [hcalls, List.mem_singleton] at hmade
  subst hmade
  injection hc with hc
  injection hc with hkv haddr
  injection hkv with _ hv
  subst hv
  exact ⟨p, hsafe.1, hH.mem_inv.below p fun hz => hne (by rw [hz, addr_zero]), haddr.symm, hu⟩

/-- Two inserts that choose the same slot, and a round of the rehasher. -/
def twoInserts : List (Act (Op Word Nat)) :=
  callFor 1 (oddInsert 0) 20 ++ callFor 2 (oddInsert 1) 24 ++ callFor 0 .resize 3 ++
  List.replicate 26 (Act.run 1)

theorem twoInserts_run : ((obj smallTable).runUnder safeInserts twoInserts
    (Cfg.init emptyTable)).any fun c => c.hist =
      [⟨2, oddInsert 1, {}, 22, 46⟩, ⟨0, .resize, {}, 47, 50⟩, ⟨1, oddInsert 0, {}, 1, 76⟩] ∧
    c.mem.calls (oddKey 0) = [oddInsert 0] := by decide +kernel

theorem insert_survives_twoInserts : ∃ c : Config Word Nat,
    (obj smallTable).Reach safeInserts Init c ∧ c.hist.length = 3 ∧
    ∃ q, c.mem.cur.lastLevel ≤ q.level ∧ q.level ≤ c.mem.cur.firstLevel ∧
      addr (c.mem.slots q) = 0x10 ∧ c.mem.entryAt q = some (oddKey 0, 0) := by
  obtain ⟨c, hreach, hhist, hcalls⟩ := emptyTable_reach.of_any twoInserts_run
  have hi : ⟨1, oddInsert 0, {}, 1, 76⟩ ∈ c.hist := by
    simp only [hhist, List.mem_cons, true_or, or_true]
  exact ⟨c, hreach, by rw [hhist]; rfl,
    insert_survives_rehashing (by decide) hreach hcalls hi rfl rfl⟩

/-- The insert has returned, and nothing in the levels that are left holds its
key. -/
theorem insert_lost_to_rehashing : ∃ (c : Config Word Nat)
    (i : Call (Op Word Nat) (Ret Word Nat)), (obj smallTable).Reach insertsOnly Init c ∧
    c.mem.ops = [] ∧ c.mem.calls (oddKey 8) = [oddInsert 8] ∧ i ∈ c.hist ∧ i.op = oddInsert 8 ∧
    i.ret.found = false ∧ ∀ q, c.mem.cur.lastLevel ≤ q.level → q.level ≤ c.mem.cur.firstLevel →
      ∀ v, c.mem.entryAt q ≠ some (oddKey 8, v) := by
  obtain ⟨c, i, hc, hi, hop, hret, hops, hcalls, hcur, hplaces, _⟩ := lostInsert_reach
  refine ⟨c, i, hc, hops, hcalls, hi, hop, hret, fun q hlo hhi v he => ?_⟩
  rw [hcur] at hlo hhi
  have hinv := (holds_of_reach (by decide) insertsOnly_tame hc).mem_inv
  have hslot := (hinv.placed.of_entryAt he).2.1
  have hall := hplaces q (Table.mem_places hslot (Nat.lt_succ_of_le hhi)) hlo
  rw [he] at hall
  exact of_decide_eq_true (p := oddKey 8 ≠ oddKey 8) hall rfl

end Main

end ShmPcc.ClevelHash
