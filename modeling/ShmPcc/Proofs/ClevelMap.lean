import ShmPcc.Proofs.ClevelResize

/-!
# Calls that run one after another compute a finite map

The abstract table is a map `K → Option T`. As long as `find` has room for the
levels of its snapshot, calls of the five operations in any order return, and
return what the same calls on the map return.

`find` and `find_empty_slot` collect the levels in an array of `MAX_LEVEL`
places and do not check its bound. Keys whose hashes agree in the low bits and
in the tag have two buckets per level in common, so inserting them, with no
rehashing in between, makes the chain longer than the array.
-/

namespace ShmPcc.ClevelHash

open Prog

variable {K T : Type} {H : Table K} {m : Mem K T} {abs : K → Option T}

/-! ## The map -/

/-- The result is the one the map gives. -/
def Answers (abs : K → Option T) : Op K T → Ret K T → Prop
  | .insert key _ _, r | .update key _ _, r | .erase key, r => r.found = (abs key).isSome
  | .search key, r => r.found = (abs key).isSome ∧ r.value = (abs key).map fun v => (key, v)
  | .resize, _ => True

def mapStep [DecidableEq K] (abs : K → Option T) : Op K T → (K → Option T)
  | .insert key value _ => insertMap abs key value
  | .update key value _ => updateMap abs key value
  | .erase key => Function.update abs key none
  | .search _ | .resize => abs

def AnswersAll [DecidableEq K] : List (Nat × Op K T) → List (Ret K T) → (K → Option T) → Prop
  | [], [], _ => True
  | (_, op) :: ops, r :: rs, abs => Answers abs op r ∧ AnswersAll ops rs (mapStep abs op)
  | _, _, _ => False

/-! ## Calls -/

/-- `new` returns an address that is not in use. -/
def Op.News (op : Op K T) (m : Mem K T) : Prop :=
  match op with
  | .insert _ _ kv | .update _ _ kv => Available m kv
  | .erase _ | .search _ | .resize => True

/-- The rehasher runs `resize` and nothing else, a thread makes one call at a
time, and `new` returns an unused address. -/
def Legal (t : Nat) (op : Op K T) (m : Mem K T) : Prop :=
  ((op matches .resize) = (t == 0) ∧ ∀ x ∈ m.ops, x.1 ≠ t) ∧ op.News m

/-- The levels of every snapshot that `find` is called with fit in its array. -/
def Fits (H : Table K) (op : Op K T) (m : Mem K T) : Prop :=
  match op with
  | .insert key _ _ => FitsInsert H m key
  | .update _ _ _ => m.cur.span ≤ maxLevel
  | .erase _ | .search _ | .resize => True

instance (t : Nat) (op : Op K T) (m : Mem K T) : Decidable (Legal t op m) := by
  unfold Legal Op.News Available
  cases op <;> exact inferInstance

theorem fits_of_short (h : m.cur.span < maxLevel) (op : Op K T) : Fits H op m := by
  cases op with
  | insert key value kv => exact ⟨Nat.le_of_lt h, fun _ _ => h⟩
  | update key value kv => exact Nat.le_of_lt h
  | erase key => trivial
  | search key => trivial
  | resize => trivial

theorem seq_start (before : Nat → Word) (H : Table K) :
    Seq H (start before : Mem K T) fun _ => none where
  placed := fun _ hq => absurd rfl hq
  rep := by
    rw [show (start before : Mem K T).entryAt = fun _ => none from
      funext fun _ => if_pos addr_zero]
    exact Represents.empty
  chain := Nat.zero_lt_one
  top := rfl
  flag := ⟨fun h => (by cases h), fun (h : 2 ≤ 1) => absurd h (by decide)⟩
  live := fun _ hq => absurd rfl hq
  ahead := fun _ hq => absurd rfl hq
  bucket := Nat.two_pow_pos _
  idle := fun _ => rfl

variable [DecidableEq K]

theorem Seq.code_runs (h : Seq H m abs) (hp : 2 ≤ H.hashpower) (hr : 2 ≤ H.retries) {t : Nat}
    {op : Op K T} (hn : op.News m) (hf : Fits H op m) :
    (code H t op).runs (fun r m' => Seq H m' (mapStep abs op) ∧ Answers abs op r) m := by
  cases op with
  | insert key value kv =>
    exact runs_mono (fun r m' hpost => ⟨hpost.seq, hpost.found⟩)
      (h.genericInsert_runs hp hr hn hf)
  | update key value kv => exact h.genericUpdate_runs hp hr hn hf
  | erase key => exact h.erase_runs (by omega)
  | search key =>
    refine runs_mono ?_ (h.search_runs (by omega) key)
    rintro r m' ⟨rfl, hfound, hvalue⟩
    exact ⟨h, hfound, hvalue⟩
  | resize =>
    rw [code, runs_bind]
    exact runs_mono (fun _ m' hm' => ⟨hm', trivial⟩) (h.resize_runs hp hr)

theorem enter_legal (H : Table K) {t : Nat} {op : Op K T} (hl : Legal t op m) : ∃ calls,
    (obj H).enter t op m =
      some { m with ops := (t, op) :: m.ops, calls := calls } :=
  ⟨_, if_pos hl.1⟩

theorem Seq.exec_answers (h : Seq H m abs) (hp : 2 ≤ H.hashpower) (hr : 2 ≤ H.retries) {t : Nat}
    {op : Op K T} (hl : Legal t op m) (hf : Fits H op m) :
    ∃ r m', (obj H).exec t op m = some (r, m') ∧ Seq H m' (mapStep abs op) ∧
      Answers abs op r := by
  obtain ⟨calls, henter⟩ := enter_legal H hl
  have h' := (h.book m.cursor m.hold m.owner ((t, op) :: m.ops) calls).code_runs (t := t) hp hr
    hl.2 hf
  obtain ⟨r, m', hx, hseq, hans⟩ := Obj.exec_of_runs henter h'
  exact ⟨r, _, hx, hseq.book m'.cursor m'.hold m'.owner _ m'.calls, hans⟩

theorem Seq.exec_insert (h : Seq H m abs) (hp : 2 ≤ H.hashpower) (hr : 2 ≤ H.retries) {t : Nat}
    {key : K} {value : T} {kv : Word} (hl : Legal t (.insert key value kv) m) {r : Ret K T}
    {m' : Mem K T} (hx : (obj H).exec t (.insert key value kv) m = some (r, m')) :
    InsertPost H m abs key value kv r m' := by
  obtain ⟨calls, henter⟩ := enter_legal H hl
  have h₀ := h.book m.cursor m.hold m.owner
    ((t, .insert key value kv) :: m.ops) calls
  have hfit : FitsInsert H m key := by
    by_contra hfit
    obtain ⟨m₀, he, hx₀⟩ := Option.bind_eq_some_iff.mp hx
    obtain ⟨x, hx₀, _⟩ := Option.map_eq_some_iff.mp hx₀
    cases henter.symm.trans he
    exact h₀.genericInsert_overflows hp (by omega) hl.2 hfit (fun _ _ => True)
      (runs_iff_exec.mpr ⟨x.1, x.2, hx₀, trivial⟩)
  obtain ⟨r₁, m₁, hx₁, hpost⟩ := Obj.exec_of_runs henter
    (h₀.genericInsert_runs hp hr hl.2 hfit)
  cases hx.symm.trans hx₁
  refine ⟨hpost.seq.book m₁.cursor m₁.hold m₁.owner _ m₁.calls, hpost.found, hpost.entries,
    hpost.last, hpost.span, ?_⟩
  have hkeep : m.ops.filter (fun x => x.1 != t) = m.ops :=
    List.filter_eq_self.mpr fun x hx => bne_iff_ne.mpr (hl.1.2 x hx)
  show m₁.ops.filter (fun x => x.1 != t) = m.ops
  rw [hpost.ops, List.filter_cons_of_neg (by simp), hkeep]

theorem Seq.execAll_answers (hp : 2 ≤ H.hashpower) (hr : 2 ≤ H.retries) :
    ∀ {ops : List (Nat × Op K T)} {m : Mem K T} {abs : K → Option T}, Seq H m abs →
      (obj H).Along (fun t op m => Legal t op m ∧ Fits H op m) ops m →
      ∃ rs m', (obj H).execAll ops m = some (rs, m') ∧ AnswersAll ops rs abs := by
  intro ops
  induction ops with
  | nil => exact fun {m _} _ _ => ⟨[], m, rfl, trivial⟩
  | cons c ops ih =>
    intro m abs h hal
    obtain ⟨r, m₁, hx, hseq, hans⟩ := h.exec_answers hp hr hal.1.1 hal.1.2
    obtain ⟨rs, m', hrs, hall⟩ := ih hseq (hal.2 (r, m₁) hx)
    exact ⟨r :: rs, m', Obj.execAll_cons hx hrs, hans, hall⟩

/-- Calls one after another, and rounds of the rehasher between them, answer
like a finite map while the chain fits in the array of `find`. -/
theorem sequential_map (hp : 2 ≤ H.hashpower) (hr : 2 ≤ H.retries) (hinit : Init m)
    (ops : List (Nat × Op K T))
    (hfits : (obj H).Along (fun t op m => Legal t op m ∧ Fits H op m) ops m) :
    ∃ rs m', (obj H).execAll ops m = some (rs, m') ∧ AnswersAll ops rs fun _ => none := by
  obtain ⟨before, rfl⟩ := hinit
  exact (seq_start before H).execAll_answers hp hr hfits

/-- A few calls on two keys with one address given back in between. -/
def fewCalls : List (Nat × Op Word Nat) :=
  [(1, .insert 7 70 1), (2, .insert 7 71 2), (1, .insert 8 80 2), (3, .update 7 72 3), (0, .resize),
    (2, .erase 8), (1, .search 7), (1, .search 8)]

theorem sequential_map_fewCalls :
    ∃ rs m', (obj ⟨hash64shift, 2, 2⟩).execAll fewCalls (start fun _ => 0) = some (rs, m') ∧
      AnswersAll fewCalls rs fun _ => none :=
  sequential_map (by decide) (by decide) ⟨_, rfl⟩ fewCalls
    (Obj.Along.mono
      (P := fun t op (m : Mem Word Nat) => Legal t op m ∧ m.cur.span < maxLevel)
      (fun _ op _ h => ⟨h.1, fits_of_short h.2 op⟩) (by decide +kernel))

/-! ## Keys that crowd the chain -/

/-- The inverse of `hash64shift`. -/
def unhash (hv : Word) : Word :=
  let key := hv * 0x3fffffff80000001#64
  let key := key ^^^ (key >>> 28) ^^^ (key >>> 56)
  let key := key * 0xcf3cf3cf3cf3cf3d#64
  let key := key ^^^ (key >>> 14) ^^^ (key >>> 28) ^^^ (key >>> 42) ^^^ (key >>> 56)
  let key := key * 0xd38ff08b1c03dd39#64
  let key := key ^^^ (key >>> 24) ^^^ (key >>> 48)
  (key + 1) * 0x7ffffbffffdfffff#64

def crowdKey (j : Nat) : Word := unhash (BitVec.ofNat 64 (j * 65536 + 1))

def crowdAddr (j : Nat) : Word := BitVec.ofNat 64 (j + 1)

/-- Inserts of the keys number `i` to `i + n`. -/
def crowd : Nat → Nat → List (Nat × Op Word Nat)
  | _, 0 => []
  | i, n + 1 => (1, .insert (crowdKey i) i (crowdAddr i)) :: crowd (i + 1) n

theorem hash_crowdKey : ∀ j < 129, hash64shift (crowdKey j) = BitVec.ofNat 64 (j * 65536 + 1) := by
  decide +kernel

theorem crowdAddr_ok : ∀ j < 129, crowdAddr j ≠ 0 ∧ addr (crowdAddr j) = crowdAddr j := by
  decide +kernel

theorem crowdAddr_inj {i j : Nat} (hi : i < 129) (hj : j < 129)
    (h : crowdAddr i = crowdAddr j) : i = j := by
  have := congrArg BitVec.toNat h
  simp only [crowdAddr, BitVec.toNat_ofNat] at this
  omega

theorem isSome_insertMap {key k : K} {value : T} (h : (abs k).isSome = true ∨ k = key) :
    (insertMap abs key value k).isSome = true := by
  by_cases hkey : k = key
  · subst hkey
    cases hk : abs k with
    | some v => simp only [insertMap, hk, Option.isSome_some]
    | none => simp only [insertMap, hk, Function.update_self, Option.isSome_some]
  · have hk := h.resolve_right hkey
    cases hk' : abs key with
    | some v => simpa only [insertMap, hk'] using hk
    | none => simpa only [insertMap, hk', Function.update_of_ne hkey] using hk

/-- In the first 16 levels the keys share their two buckets. -/
theorem crowd_buckets : ∀ j < 129, ∀ level < 16,
    firstIndex (BitVec.ofNat 64 (j * 65536 + 1)) (2 * 2 ^ level) = 1 % 2 ^ level ∧
      getPartial (BitVec.ofNat 64 (j * 65536 + 1)) = 0 := by
  decide +kernel

section Crowd

variable {n : Nat}

/-- After `i` of the inserts. -/
structure CrowdAt (n i : Nat) (m : Mem Word Nat) : Prop where
  seq : ∃ abs, Seq ⟨hash64shift, 2, n⟩ m abs ∧ ∀ j < i, (abs (crowdKey j)).isSome = true
  unused : ∀ j, i ≤ j → j < 129 → m.entries (crowdAddr j) = none
  last : m.cur.lastLevel = 0
  span : m.cur.span ≤ maxLevel
  idle : m.ops = []

theorem CrowdAt.legal {i : Nat} {m : Mem Word Nat} (h : CrowdAt n i m) (hi : i < 129) :
    Legal 1 (.insert (crowdKey i) i (crowdAddr i)) m :=
  ⟨⟨rfl, fun x hx => by rw [h.idle] at hx; cases hx⟩, (crowdAddr_ok i hi).1,
    (crowdAddr_ok i hi).2, h.unused i (Nat.le_refl i) hi⟩

theorem CrowdAt.insert {i : Nat} {m m' : Mem Word Nat} {r : Ret Word Nat} (hn : 2 ≤ n)
    (h : CrowdAt n i m) (hi : i < 129)
    (hx : (obj ⟨hash64shift, 2, n⟩).exec 1 (.insert (crowdKey i) i (crowdAddr i)) m =
      some (r, m')) : CrowdAt n (i + 1) m' := by
  obtain ⟨abs, hseq, habs⟩ := h.seq
  obtain ⟨hseq', _, hentries, hlast, hspan, hops⟩ :=
    hseq.exec_insert (Nat.le_refl 2) hn (h.legal hi) hx
  refine ⟨⟨_, hseq', ?_⟩, ?_, hlast.trans h.last, hspan, hops.trans h.idle⟩
  · intro j hj
    refine isSome_insertMap ?_
    rcases Nat.lt_succ_iff_lt_or_eq.mp hj with hj | rfl
    · exact .inl (habs j hj)
    · exact .inr rfl
  · intro j hj hj'
    rw [hentries _ fun he => absurd (crowdAddr_inj hj' hi he) (by omega)]
    exact h.unused j (by omega) hj'

theorem CrowdAt.along (hn : 2 ≤ n) : ∀ {k i : Nat} {m : Mem Word Nat}, CrowdAt n i m →
    i + k ≤ 129 → (obj ⟨hash64shift, 2, n⟩).Along Legal (crowd i k) m
  | 0, _, _, _, _ => trivial
  | _ + 1, _, _, h, hi =>
    ⟨h.legal (by omega), fun _ hx => (h.insert hn (by omega) hx).along hn (by omega)⟩

theorem CrowdAt.execAll (hn : 2 ≤ n) : ∀ {k i : Nat} {m m' : Mem Word Nat}
    {rs : List (Ret Word Nat)}, CrowdAt n i m → i + k ≤ 129 →
    (obj ⟨hash64shift, 2, n⟩).execAll (crowd i k) m = some (rs, m') → CrowdAt n (i + k) m' := by
  intro k
  induction k with
  | zero =>
    intro i m m' rs h _ hx
    cases hx
    exact h
  | succ k ih =>
    intro i m m' rs h hi hx
    obtain ⟨x, hx₁, hrest⟩ := Option.bind_eq_some_iff.mp hx
    obtain ⟨y, hy, hyeq⟩ := Option.map_eq_some_iff.mp hrest
    cases hyeq
    have := ih (h.insert hn (by omega) hx₁) (by omega) hy
    rwa [Nat.add_right_comm, Nat.add_assoc] at this

/-- Where the keys can be: one of two buckets in each of 16 levels. -/
theorem crowd_isSlot {j : Nat} (hj : j < 129) {q : Slot} (hl : q.level < 16)
    (hq : Table.IsSlot ⟨hash64shift, 2, n⟩ (crowdKey j) q) :
    (q.bucket = 1 % 2 ^ q.level ∨
      q.bucket = secondIndex 0 (1 % 2 ^ q.level) (2 * 2 ^ q.level)) ∧ q.slot < 4 := by
  obtain ⟨hf, hpar⟩ := crowd_buckets j hj q.level hl
  obtain ⟨hb, hs⟩ := hq
  simp only [Table.IsBucket, Table.sIdx, Table.fIdx, Table.par, Table.capacity_eq,
    hash_crowdKey j hj, Nat.add_one_sub_one, Nat.pow_one, hf, hpar] at hb
  exact ⟨hb, hs⟩

/-- There are fewer slots than keys. -/
theorem CrowdAt.too_many {m : Mem Word Nat} (h : CrowdAt n 129 m) : False := by
  obtain ⟨abs, hseq, habs⟩ := h.seq
  have hat : ∀ j : Fin 129, ∃ q v, m.entryAt q = some (crowdKey j, v) := fun j =>
    (hseq.has_iff _).mpr (habs j j.isLt)
  choose q v hq using hat
  have hlevel : ∀ j, (q j).level < 16 := by
    intro j
    have hlive := hseq.live (q j) (hseq.placed.of_entryAt (hq j)).2.2
    have hspan := h.span
    rw [Meta.span, maxLevel, h.last] at hspan
    omega
  have hslot := fun j : Fin 129 => crowd_isSlot j.isLt (hlevel j) (hseq.placed.of_entryAt (hq j)).2.1
  let f : Fin 129 → Fin 16 × Bool × Fin 4 := fun j =>
    (⟨(q j).level, hlevel j⟩, (q j).bucket == 1 % 2 ^ (q j).level, ⟨(q j).slot, (hslot j).2⟩)
  have hf : Function.Injective f := by
    intro i j hij
    simp only [f, Prod.mk.injEq, Fin.mk.injEq] at hij
    obtain ⟨hl, hb, hs⟩ := hij
    have hqq : q i = q j := by
      have hi := (hslot i).1
      have hj := (hslot j).1
      rw [Bool.eq_iff_iff, beq_iff_eq, beq_iff_eq] at hb
      rw [hl] at hb hi
      have hbb : (q i).bucket = (q j).bucket := by
        rcases hi with hi | hi
        · exact hi.trans (hb.mp hi).symm
        · rcases hj with hj | hj
          · exact (hb.mpr hj).trans hj.symm
          · exact hi.trans hj.symm
      cases hqi : q i
      cases hqj : q j
      simp_all
    have hkeys := (hq i).symm.trans (hqq ▸ hq j)
    have hhash := congrArg (fun kv => kv.map fun kv : Word × Nat => hash64shift kv.1) hkeys
    simp only [Option.map_some, hash_crowdKey _ i.isLt, hash_crowdKey _ j.isLt,
      Option.some.injEq] at hhash
    have := congrArg BitVec.toNat hhash
    simp only [BitVec.toNat_ofNat] at this
    omega
  have := Fintype.card_le_of_injective f hf
  simp at this

theorem crowd_overflows {n : Nat} (hn : 2 ≤ n) :
    (obj ⟨hash64shift, 2, n⟩).Along Legal (crowd 0 129) (start fun _ => 0) ∧
      (obj ⟨hash64shift, 2, n⟩).execAll (crowd 0 129) (start fun _ => 0) = none := by
  have h₀ : CrowdAt n 0 (start fun _ => 0) :=
    ⟨⟨_, seq_start _ _, fun _ hj => absurd hj (Nat.not_lt_zero _)⟩, fun _ _ _ => rfl, rfl,
      by decide, rfl⟩
  refine ⟨h₀.along hn (Nat.le_refl 129), ?_⟩
  cases hx : (obj ⟨hash64shift, 2, n⟩).execAll (crowd 0 129) (start fun _ => 0) with
  | none => rfl
  | some x => exact (h₀.execAll hn (Nat.le_refl 129) hx).too_many.elim

/-- 129 inserts do not all return, whatever the number of rounds. -/
theorem level_array_overflow :
    (obj ⟨hash64shift, 2, 2⟩).Along Legal (crowd 0 129) (start fun _ => 0) ∧
      ¬ ∃ retries, 2 ≤ retries ∧ ((obj ⟨hash64shift, 2, retries⟩).execAll (crowd 0 129)
        (start fun _ => 0)).isSome = true := by
  refine ⟨(crowd_overflows (Nat.le_refl 2)).1, ?_⟩
  intro h
  obtain ⟨n, hn, hx⟩ := h
  rw [(crowd_overflows hn).2] at hx
  cases hx

end Crowd

end ShmPcc.ClevelHash
