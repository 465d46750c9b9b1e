import ShmPcc.Ref.ClevelOpt

/-!
# The two builds of `clevel_hash`

In the build with `OPT_CLEVEL_ROOT_READ` the first published meta has no levels in its array.
`find` on it sees no slot, so the first insert makes the table grow where the plain build has
room, and a search follows a null pointer. Calls that neither insert nor search leave the table
as the constructor made it, and on such a table the two builds do the same.
-/

namespace ShmPcc.ClevelOpt

open ClevelHash Prog

variable {K T : Type} {H : Table K} {m : ClevelHash.Mem K T} {c : Mem K T}

/-! ## The shared code -/

section Shared

variable {α : Type}

@[simp] theorem exec_onTable (p : ClevelHash.Code K T α) (c : Mem K T) :
    (onTable p).exec c = (p.exec c.table).map fun r => (r.1, { c with table := r.2 }) := by
  have hget : ∀ (x : ClevelHash.Mem K T) (s : Mem K T), (Mem.setTable x s).table = x :=
    fun _ _ => rfl
  exact exec_zoom hget (fun _ => rfl) (fun _ _ _ => rfl) p c

@[simp] theorem exec_loadPtr (c : Mem K T) :
    (loadPtr : Code K T Snap).exec c = some (c.snap c.table.metaPtr, c) := rfl

end Shared

/-! ## Visiting empty slots -/

/-- What `find` has noted while it has seen empty slots only. -/
structure Unfilled (f : Find) : Prop where
  notFound : f.result.isFound = false
  slot : f.result.isVacancy = true → f.oldE = 0 ∧ ∃ q, f.e = some q

theorem unfilled_init (last : Option Slot) : Unfilled { lastBucketEntry := last } :=
  ⟨rfl, fun h => by cases h⟩

section Visit

variable [DecidableEq K] (H : Table K) (t : Nat) (query : Query K) (levels : List Nat)
  (side : Side) (i : Nat) {f : Find}

theorem exec_visitSlot {q : Slot} {b : Bool} (hq : m.slots q = 0) (hf : Unfilled f) :
    ∃ f' b', (visitSlot H t query levels side i q f b).exec m = some (.next f' b', m) ∧
      Unfilled f' ∧ (f.result.isVacancy = true ∨ b = false → f'.result.isVacancy = true) := by
  have haddr : addr 0 = 0 := by decide
  simp only [visitSlot, loadSlot, exec_bind, exec_read, Option.bind_some, hq, haddr,
    if_true, hf.notFound]
  cases b with
  | false =>
    simp only [and_self, if_true]
    split
    · next hkeep =>
      -- the bucket on the left has a vacant slot that is as good
      refine ⟨f, true, rfl, hf, fun _ => ?_⟩
      rw [hkeep.2.1]
      rfl
    · refine ⟨_, true, rfl, ⟨?_, fun _ => ⟨rfl, q, rfl⟩⟩, fun _ => ?_⟩
      · cases side <;> rfl
      · cases side <;> rfl
  | true => exact ⟨f, true, rfl, hf, fun h => h.resolve_right (by decide)⟩

theorem exec_visitBucket (hm : ∀ q, m.slots q = 0) (level bucket n j : Nat) (b : Bool)
    (hf : Unfilled f) :
    ∃ f', (visitBucket H t query levels side i level bucket n j f b).exec m =
        some (.next f' false, m) ∧ Unfilled f' ∧
      (f.result.isVacancy = true ∨ (0 < n ∧ b = false) → f'.result.isVacancy = true) := by
  induction n generalizing j f b with
  | zero => exact ⟨f, rfl, hf, fun h => h.resolve_right fun h => absurd h.1 (by omega)⟩
  | succ n ih =>
    obtain ⟨f₁, b₁, hslot, hf₁, hvac₁⟩ := exec_visitSlot H t query levels side i
      (hm ⟨level, bucket, j⟩) hf
    obtain ⟨f₂, hrest, hf₂, hvac₂⟩ := ih (j + 1) b₁ hf₁
    refine ⟨f₂, ?_, hf₂, fun h => hvac₂ (.inl (hvac₁ (h.imp_right And.right)))⟩
    rw [visitBucket, exec_bind, hslot]
    exact hrest

theorem exec_visitLevels (hm : ∀ q, m.slots q = 0) (rest : List Nat) (i : Nat) (hf : Unfilled f) :
    ∃ f', (visitLevels H t query levels rest i f).exec m = some (.next f' false, m) ∧
      Unfilled f' ∧ (f.result.isVacancy = true ∨ rest ≠ [] → f'.result.isVacancy = true) := by
  induction rest generalizing i f with
  | nil => exact ⟨f, rfl, hf, fun h => h.resolve_right fun h => h rfl⟩
  | cons cl rest ih =>
    obtain ⟨f₁, hleft, hf₁, hvac₁⟩ := exec_visitBucket H t query levels .left i hm cl
      (H.fIdx query.key cl) assocNum 0 false hf
    obtain ⟨f₂, hright, hf₂, hvac₂⟩ := exec_visitBucket H t query levels .right i hm cl
      (H.sIdx query.key cl) assocNum 0 false hf₁
    obtain ⟨f₃, hrest, hf₃, hvac₃⟩ := ih (i + 1) hf₂
    refine ⟨f₃, ?_, hf₃, fun _ => ?_⟩
    · rw [visitLevels, exec_bind, hleft]
      simp only [Option.bind_some, exec_bind, hright]
      exact hrest
    · have h₁ := hvac₁ (.inr ⟨by decide, rfl⟩)
      exact hvac₃ (.inl (hvac₂ (.inl h₁)))

end Visit

/-! ## The table the constructor makes -/

/-- Two levels, published, and nothing in them. -/
structure Blank (m : ClevelHash.Mem K T) : Prop where
  cur : m.cur = ⟨1, 0, false⟩
  levels : m.levels = 2
  slots : ∀ q, m.slots q = 0
  entries : ∀ a, m.entries a = none

theorem Blank.allocate_release (hm : Blank m) (t : Nat) (kv : Word) (item : K × T) :
    Blank ((m.allocate t kv item).release kv) where
  cur := hm.cur
  levels := hm.levels
  slots := hm.slots
  entries a := by
    by_cases ha : a = kv
    · simp [ClevelHash.Mem.release, ClevelHash.Mem.disown, ha]
    · simp [ClevelHash.Mem.release, ClevelHash.Mem.disown, ClevelHash.Mem.allocate,
        ClevelHash.Mem.own, ha, hm.entries]

/-- A blank table in this build: no level is in the array of the published meta. -/
structure Fresh (c : Mem K T) : Prop where
  blank : Blank c.table
  levels : c.levels c.table.metaPtr = []

theorem fresh_start (before : Nat → Word) (junk : Nat → Nat) :
    Fresh (start before junk : Mem K T) where
  blank := ⟨rfl, rfl, fun _ => rfl, fun _ => rfl⟩
  levels := rfl

theorem exec_loadMeta : (loadMeta : ClevelHash.Code K T _).exec m = some ((m.metaPtr, m.cur), m) :=
  rfl

theorem exec_loadUp (level : Nat) : (loadUp level : ClevelHash.Code K T _).exec m =
    some (if level + 1 < m.levels then some (level + 1) else none, m) := rfl

theorem exec_collectLevels (hl : m.levels = 2) :
    (collectLevels ⟨1, 0, false⟩ maxLevel 0 : ClevelHash.Code K T _).exec m = some ([0, 1], m) := by
  simp [collectLevels, maxLevel, exec_loadUp, hl]

theorem exec_countLevels (hl : m.levels = 2) :
    (countLevels ⟨1, 0, false⟩ 2 0 1 : ClevelHash.Code K T _).exec m = some (2, m) := by
  simp [countLevels, exec_loadUp, hl]

theorem exec_newEntry (t : Nat) {kv : Word} (item : K × T) (hkv : kv ≠ 0 ∧ addr kv = kv)
    (he : m.entries kv = none) :
    (newEntry t kv item).exec m = some ((), m.allocate t kv item) := by
  have hnew : kv ≠ 0 ∧ addr kv = kv ∧ m.entries kv = none := ⟨hkv.1, hkv.2, he⟩
  simp only [newEntry, exec_step, if_pos hnew, exec_ret]

theorem exec_resize (hm : Blank m) : (ClevelHash.resize H).exec m = some ((), m) := by
  simp [ClevelHash.resize, exec_loadMeta, hm.cur, Meta.span, exec_countLevels hm.levels]

theorem exec_resize_opt (hc : Fresh c) : (resize H).exec c = some ((), c) := by
  have hcur : c.table.metas c.table.metaPtr = ⟨1, 0, false⟩ := hc.blank.cur
  simp [resize, Mem.snap, hcur, Meta.span, exec_countLevels hc.blank.levels]

section Calls

variable [DecidableEq K]

theorem exec_find (t : Nat) (query : Query K) (hr : 1 ≤ H.retries) (hcur : m.cur = ⟨1, 0, false⟩)
    (hl : m.levels = 2) (hm : ∀ q, m.slots q = 0) :
    ∃ f, (ClevelHash.find H t query m.metaPtr m.cur).exec m = some (f, m) ∧ Unfilled f ∧
      f.result.isVacancy = true := by
  obtain ⟨n, hn⟩ := Nat.exists_eq_add_of_le' hr
  obtain ⟨f, hvisit, hf, hvac⟩ := exec_visitLevels H t query [0, 1] hm [0, 1] 0
    (unfilled_init none)
  refine ⟨f, ?_, hf, hvac (.inr (by simp))⟩
  rw [ClevelHash.find, hn, ClevelHash.findLoop, exec_bind, hcur, exec_collectLevels hl]
  simp only [Option.bind_some, exec_bind, hvisit, exec_loadMeta, if_true, pure_eq,
    exec_ret]

theorem exec_find_nil (t : Nat) (query : Query K) (hr : 1 ≤ H.retries)
    (hc : c.levels c.table.metaPtr = []) :
    (find H t query (c.snap c.table.metaPtr)).exec c = some ({}, c) := by
  obtain ⟨n, hn⟩ := Nat.exists_eq_add_of_le' hr
  simp [find, hn, findLoop, Mem.snap, hc, visitLevels]

/-! ### Calls that leave the table as it is -/

variable {kv : Word}

theorem exec_genericUpdate (t : Nat) (key : K) (value : T) (hr : 1 ≤ H.retries) (hm : Blank m)
    (hkv : kv ≠ 0 ∧ addr kv = kv) :
    (ClevelHash.genericUpdate H t key value kv).exec m =
      some ({}, (m.allocate t kv (key, value)).release kv) := by
  obtain ⟨n, hn⟩ := Nat.exists_eq_add_of_le' hr
  have hnew := exec_newEntry t (key, value) hkv (hm.entries kv)
  generalize hm₁ : m.allocate t kv (key, value) = m₁ at hnew ⊢
  have hcur : m₁.cur = ⟨1, 0, false⟩ := by rw [← hm₁]; exact hm.cur
  have hl : m₁.levels = 2 := by rw [← hm₁]; exact hm.levels
  have hslots : ∀ q, m₁.slots q = 0 := by rw [← hm₁]; exact hm.slots
  obtain ⟨f, hfind, hf, _⟩ := exec_find t ⟨key, true, true⟩ hr hcur hl hslots
  rw [ClevelHash.genericUpdate, exec_bind, hnew]
  simp only [Option.bind_some, exec_bind, exec_loadMeta, hn, ClevelHash.updateLoop, hfind,
    hf.notFound]
  rfl

theorem exec_genericUpdate_opt (t : Nat) (key : K) (value : T) (hr : 1 ≤ H.retries) (hc : Fresh c)
    (hkv : kv ≠ 0 ∧ addr kv = kv) :
    (genericUpdate H t key value kv).exec c =
      some ({}, { c with table := (c.table.allocate t kv (key, value)).release kv }) := by
  obtain ⟨n, hn⟩ := Nat.exists_eq_add_of_le' hr
  have hnew := exec_newEntry t (key, value) hkv (hc.blank.entries kv)
  have hlevels : c.levels (c.table.allocate t kv (key, value)).metaPtr = [] := hc.levels
  rw [genericUpdate, exec_bind, exec_onTable, hnew]
  generalize c.table.allocate t kv (key, value) = m₁ at hlevels ⊢
  have hfind := exec_find_nil (H := H) (c := { c with table := m₁ }) t ⟨key, true, true⟩ hr hlevels
  simp only [Option.map_some, Option.bind_some, exec_bind, exec_loadPtr, hn, updateLoop, hfind]
  rfl

theorem exec_eraseSlot (t : Nat) (key : K) (ptr i : Nat) {q : Slot} (hq : m.slots q = 0) :
    (eraseSlot H t key ptr i q).exec m = some (false, m) := by
  have haddr : addr 0 = 0 := by decide
  simp only [eraseSlot, loadSlot, exec_bind, exec_read, Option.bind_some, hq, haddr,
    ne_eq, not_true_eq_false, and_false, if_false, pure_eq, exec_ret]

theorem exec_eraseBucket (hm : ∀ q, m.slots q = 0) (t : Nat) (key : K) (ptr i level bucket n j : Nat)
    (s : Bool) : (eraseBucket H t key ptr i level bucket n j s).exec m = some (s, m) := by
  induction n generalizing j s with
  | zero => rfl
  | succ n ih =>
    rw [eraseBucket, exec_bind, exec_eraseSlot t key ptr i (hm _)]
    simpa using ih (j + 1) s

theorem exec_erase (t : Nat) (key : K) (hr : 1 ≤ H.retries) (hm : Blank m) :
    (ClevelHash.erase H t key).exec m = some ({}, m) := by
  obtain ⟨n, hn⟩ := Nat.exists_eq_add_of_le' hr
  simp [ClevelHash.erase, hn, eraseLoop, exec_loadMeta, hm.cur, Meta.span, eraseLevels,
    exec_eraseBucket hm.slots, exec_loadUp, hm.levels]

/-! ### Calls that tell the builds apart -/

theorem exec_genericInsert (t : Nat) (key : K) (value : T) (hr : 1 ≤ H.retries) (hm : Blank m)
    (hkv : kv ≠ 0 ∧ addr kv = kv) :
    ∃ m', (ClevelHash.genericInsert H t key value kv).exec m = some ({}, m') := by
  obtain ⟨n, hn⟩ := Nat.exists_eq_add_of_le' hr
  have hnew := exec_newEntry t (key, value) hkv (hm.entries kv)
  generalize hm₁ : m.allocate t kv (key, value) = m₁ at hnew
  have hcur : m₁.cur = ⟨1, 0, false⟩ := by rw [← hm₁]; exact hm.cur
  have hl : m₁.levels = 2 := by rw [← hm₁]; exact hm.levels
  have hslots : ∀ q, m₁.slots q = 0 := by rw [← hm₁]; exact hm.slots
  obtain ⟨f, hfind, hf, hvac⟩ := exec_find t ⟨key, false, false⟩ hr hcur hl hslots
  obtain ⟨hold, q, hq⟩ := hf.slot hvac
  rw [hcur] at hfind
  let created := setPartial kv (H.par key)
  let m₂ := ClevelHash.Mem.disown kv { m₁ with slots := Function.update m₁.slots q created }
  have hcas : (casSlot (.insertCas q) q f.oldE created (ClevelHash.Mem.disown kv)).exec m₁ =
      some (true, m₂) := by
    simp [casSlot, hslots, hold, m₂]
  have hcur₂ : m₂.cur = ⟨1, 0, false⟩ := hcur
  refine ⟨m₂, ?_⟩
  rw [ClevelHash.genericInsert, exec_bind, hnew]
  simp only [Option.bind_some, hn, ClevelHash.insertLoop, exec_bind, exec_loadMeta, if_true,
    hcur, hfind, pure_eq, exec_ret, hf.notFound, Bool.false_eq_true, if_false, hvac,
    or_true, and_self, hq, hcas, hcur₂, false_and, created]

/-- Once it has grown, an insert says so, unless it finds its key. -/
theorem insertLoop_returns (t : Nat) (key : K) (kv created : Word) (n : Nat) (check : Bool) :
    (insertLoop H t key kv created n check true : Code K T _).Returns
      fun r => r.expanded = true ∨ r.found = true := by
  induction n generalizing check with
  | zero => trivial
  | succ n ih =>
    refine returns_any.bind fun m _ => returns_any.bind fun r _ => ?_
    dsimp only
    split
    · exact returns_any.bind fun _ _ => .inr rfl
    split
    · split
      · trivial
      · refine returns_any.bind fun done _ => ?_
        split
        · split
          · refine returns_any.bind fun tmp _ => ?_
            split
            · exact ih false
            · exact .inl rfl
          · exact .inl rfl
        · exact ih check
    · exact returns_any.bind fun _ _ => ih check

theorem genericInsert_expands (t : Nat) (key : K) (value : T) (hr : 1 ≤ H.retries) (hc : Fresh c)
    (hkv : kv ≠ 0 ∧ addr kv = kv) {r : Ret K T} {c' : Mem K T}
    (h : (genericInsert H t key value kv).exec c = some (r, c')) :
    r.expanded = true ∨ r.found = true := by
  obtain ⟨n, hn⟩ := Nat.exists_eq_add_of_le' hr
  have hnew := exec_newEntry t (key, value) hkv (hc.blank.entries kv)
  have hlevels : c.levels (c.table.allocate t kv (key, value)).metaPtr = [] := hc.levels
  rw [genericInsert, exec_bind, exec_onTable, hnew] at h
  generalize c.table.allocate t kv (key, value) = m₁ at hlevels h
  have hfind := exec_find_nil (H := H) (c := { c with table := m₁ }) t ⟨key, false, false⟩ hr hlevels
  have hfound : ({} : Find).result.isFound = false := rfl
  have hvac : ({} : Find).result.isVacancy = false := rfl
  simp only [Option.map_some, Option.bind_some, hn, insertLoop, exec_bind, exec_loadPtr,
    if_true, hfind, pure_eq, exec_ret, hfound, hvac, Bool.false_eq_true, if_false,
    false_and] at h
  obtain ⟨x, _, hx⟩ := Option.bind_eq_some_iff.mp h
  exact exec_returns (insertLoop_returns t key kv _ n true) hx

theorem exec_search_opt (key : K) (hc : Fresh c) : (search H key).exec c = none := by
  rw [search, exec_bind, exec_loadPtr]
  cases H.retries with
  | zero => rfl
  | succ n => simp [searchLoop, Mem.snap, hc.levels, searchLevels]

/-! ## Sequences of calls -/

/-- The rehasher and nobody else runs `resize`, and `new` returns a pointer. -/
def Callable (t : Nat) (op : Op K T) : Prop :=
  (op matches .resize) = (t == 0) ∧
    match op with
    | .insert _ _ kv | .update _ _ kv => kv ≠ 0 ∧ addr kv = kv
    | _ => True

def Passive : Op K T → Prop
  | .insert _ _ _ | .search _ => False
  | .update _ _ _ | .erase _ | .resize => True

variable {t : Nat} {op : Op K T}

theorem exec_code_passive (hr : 1 ≤ H.retries) (hc : Fresh c) (hcall : Callable t op)
    (hop : Passive op) :
    ∃ r m', (ClevelHash.code H t op).exec c.table = some (r, m') ∧
      (code H t op).exec c = some (r, { c with table := m' }) ∧ Blank m' ∧
      m'.metaPtr = c.table.metaPtr ∧ m'.ops = c.table.ops := by
  cases op with
  | insert key value kv => exact hop.elim
  | search key => exact hop.elim
  | update key value kv =>
    exact ⟨_, _, exec_genericUpdate t key value hr hc.blank hcall.2,
      exec_genericUpdate_opt t key value hr hc hcall.2,
      hc.blank.allocate_release t kv (key, value), rfl, rfl⟩
  | erase key =>
    have herase := exec_erase t key hr hc.blank
    refine ⟨_, _, herase, ?_, hc.blank, rfl, rfl⟩
    rw [code, erase, exec_onTable, herase]
    rfl
  | resize =>
    refine ⟨{}, _, ?_, ?_, hc.blank, rfl, rfl⟩
    · simp [ClevelHash.code, exec_resize hc.blank]
    · simp [code, exec_resize_opt hc]

theorem enter_idle (hcall : Callable t op) (hops : m.ops = []) :
    ∃ m₀, enter t op m = some m₀ ∧ m₀.ops = [(t, op)] ∧ m₀.metaPtr = m.metaPtr ∧
      (Blank m → Blank m₀) := by
  unfold enter
  rw [if_pos ⟨hcall.1, by simp [hops]⟩]
  exact ⟨_, rfl, by simp [hops], rfl, fun h => ⟨h.cur, h.levels, h.slots, h.entries⟩⟩

theorem exec_passive (hr : 1 ≤ H.retries) (hc : Fresh c) (hops : c.table.ops = [])
    (hcall : Callable t op) (hop : Passive op) :
    ∃ r m', (ClevelHash.obj H).exec t op c.table = some (r, m') ∧
      (obj H).exec t op c = some (r, { c with table := m' }) ∧
      Fresh { c with table := m' } ∧ m'.ops = [] := by
  obtain ⟨m₀, henter, hops₀, hptr₀, hblank₀⟩ := enter_idle hcall hops
  have hc₀ : Fresh { c with table := m₀ } := ⟨hblank₀ hc.blank, by rw [hptr₀]; exact hc.levels⟩
  obtain ⟨r, m₁, hplain, hopt, hblank, hptr, hops₁⟩ := exec_code_passive hr hc₀ hcall hop
  refine ⟨r, (ClevelHash.obj H).leave t op r m₁, ?_, ?_, ⟨?_, ?_⟩, ?_⟩
  · rw [Obj.exec, show (ClevelHash.obj H).enter t op c.table = some m₀ from henter, Option.bind_some,
      show (ClevelHash.obj H).code t op = ClevelHash.code H t op from rfl, hplain]
    rfl
  · rw [Obj.exec, show (obj H).enter t op c = some { c with table := m₀ } by simp [obj, henter],
      Option.bind_some, show (obj H).code t op = code H t op from rfl, hopt]
    rfl
  · exact ⟨hblank.cur, hblank.levels, hblank.slots, hblank.entries⟩
  · show c.levels m₁.metaPtr = []
    rw [hptr]
    exact hc₀.levels
  · show m₁.ops.filter _ = []
    rw [hops₁, hops₀]
    simp

/-- The first insert and the first search tell the builds apart. -/
theorem exec_active (hr : 1 ≤ H.retries) (hc : Fresh c) (hops : c.table.ops = [])
    (hcall : Callable t op) (hop : ¬ Passive op) {r r' : Ret K T} {m' : ClevelHash.Mem K T}
    {c' : Mem K T} (hplain : (ClevelHash.obj H).exec t op c.table = some (r, m'))
    (hopt : (obj H).exec t op c = some (r', c')) : r ≠ r' := by
  obtain ⟨m₀, henter, _, hptr₀, hblank₀⟩ := enter_idle hcall hops
  have hc₀ : Fresh { c with table := m₀ } := ⟨hblank₀ hc.blank, by rw [hptr₀]; exact hc.levels⟩
  rw [Obj.exec, show (ClevelHash.obj H).enter t op c.table = some m₀ from henter, Option.bind_some,
    Option.map_eq_some_iff] at hplain
  rw [Obj.exec, show (obj H).enter t op c = some { c with table := m₀ } by simp [obj, henter],
    Option.bind_some, Option.map_eq_some_iff] at hopt
  obtain ⟨x, hx, hxr⟩ := hplain
  obtain ⟨y, hy, hyr⟩ := hopt
  cases op with
  | update key value kv | erase key | resize => exact (hop trivial).elim
  | search key =>
    have hnone := exec_search_opt (H := H) key hc₀
    cases hnone.symm.trans hy
  | insert key value kv =>
    obtain ⟨m₁, hinsert⟩ := exec_genericInsert t key value hr hc₀.blank hcall.2
    cases hinsert.symm.trans hx
    cases hxr
    cases hyr
    intro heq
    rcases genericInsert_expands t key value hr hc₀ hcall.2 hy with hexp | hfound
    · rw [← heq] at hexp
      cases hexp
    · rw [← heq] at hfound
      cases hfound

/-- The published levels and what is in them. -/
structure SameTable (m m' : ClevelHash.Mem K T) : Prop where
  cur : m.cur = m'.cur
  levels : m.levels = m'.levels
  slots : m.slots = m'.slots

/-- Both builds return, with the same results and the same table. -/
def Agree (H : Table K) (ops : List (Nat × Op K T)) (m : ClevelHash.Mem K T) (c : Mem K T) : Prop :=
  ∃ rs m' c', (ClevelHash.obj H).execAll ops m = some (rs, m') ∧
    (obj H).execAll ops c = some (rs, c') ∧ SameTable m' c'.table

theorem agree_cons {ops : List (Nat × Op K T)} {r : Ret K T} {m₁ : ClevelHash.Mem K T}
    {c₁ : Mem K T} (hplain : (ClevelHash.obj H).exec t op m = some (r, m₁))
    (hopt : (obj H).exec t op c = some (r, c₁)) :
    Agree H ((t, op) :: ops) m c ↔ Agree H ops m₁ c₁ := by
  constructor
  · intro h
    obtain ⟨rs, m', c', hm, hc, hsame⟩ := h
    rw [Obj.execAll, hplain, Option.bind_some, Option.map_eq_some_iff] at hm
    rw [Obj.execAll, hopt, Option.bind_some, Option.map_eq_some_iff] at hc
    obtain ⟨⟨rs₁, _⟩, hx, hxs⟩ := hm
    obtain ⟨⟨rs₂, _⟩, hy, hys⟩ := hc
    cases hxs
    cases hys
    exact ⟨rs₁, _, _, hx, hy, hsame⟩
  · intro h
    obtain ⟨rs, m', c', hm, hc, hsame⟩ := h
    exact ⟨r :: rs, m', c', Obj.execAll_cons hplain hm, Obj.execAll_cons hopt hc, hsame⟩

theorem agree_iff_of_fresh (hr : 1 ≤ H.retries) {ops : List (Nat × Op K T)}
    (hcall : ∀ x ∈ ops, Callable x.1 x.2) (hc : Fresh c) (hops : c.table.ops = []) :
    Agree H ops c.table c ↔ ∀ x ∈ ops, Passive x.2 := by
  induction ops generalizing c with
  | nil =>
    refine iff_of_true ⟨[], c.table, c, rfl, rfl, rfl, rfl, rfl⟩ ?_
    simp
  | cons x ops ih =>
    obtain ⟨t, op⟩ := x
    have hcall₀ : Callable t op := hcall (t, op) List.mem_cons_self
    have hrest : ∀ x ∈ ops, Callable x.1 x.2 := fun x hx => hcall x (.tail _ hx)
    by_cases hop : Passive op
    · obtain ⟨r, m₁, hplain, hopt, hc₁, hops₁⟩ := exec_passive hr hc hops hcall₀ hop
      rw [agree_cons hplain hopt, ih hrest hc₁ hops₁]
      simp [hop]
    · refine iff_of_false ?_ fun h => hop (h (t, op) List.mem_cons_self)
      intro hagree
      obtain ⟨rs, m', c', hplain, hopt, _⟩ := hagree
      obtain ⟨p, hp, hps⟩ := Option.bind_eq_some_iff.mp hplain
      obtain ⟨o, ho, hos⟩ := Option.bind_eq_some_iff.mp hopt
      obtain ⟨p', _, hp'⟩ := Option.map_eq_some_iff.mp hps
      obtain ⟨o', _, ho'⟩ := Option.map_eq_some_iff.mp hos
      have hsame : p.1 :: p'.1 = o.1 :: o'.1 :=
        (congrArg Prod.fst hp').trans (congrArg Prod.fst ho').symm
      exact exec_active hr hc hops hcall₀ hop hp ho (List.cons.inj hsame).1

/-- From the constructor's state on, whatever the variable that is not assigned holds, the two
builds agree on the sequences of calls that neither insert nor search, and on no others. -/
theorem builds_agree_iff (hr : 1 ≤ H.retries) (before : Nat → Word) (junk : Nat → Nat)
    (ops : List (Nat × Op K T)) (hcall : ∀ x ∈ ops, Callable x.1 x.2) :
    Agree H ops (ClevelHash.start before) (start before junk) ↔ ∀ x ∈ ops, Passive x.2 :=
  agree_iff_of_fresh hr hcall (fresh_start before junk) rfl

end Calls

def passiveCalls : List (Nat × Op Word Nat) :=
  [(1, .update 7 70 16), (0, .resize), (2, .erase 7), (3, .update 7 71 16)]

theorem builds_agree_passiveCalls : Agree ⟨hash64shift, 2, 2⟩ passiveCalls
    (ClevelHash.start fun _ => 0) (start (fun _ => 0) fun _ => 5) := by
  have hcall : ∀ x ∈ passiveCalls, Callable x.1 x.2 := by
    simp [passiveCalls, Callable, addr]
  have hpassive : ∀ x ∈ passiveCalls, Passive x.2 := by
    simp [passiveCalls, Passive]
  exact (builds_agree_iff (by decide) _ _ passiveCalls hcall).2 hpassive

/-- One insert: the plain build puts the entry into one of its two levels, this one appends a
third. One search: the plain build finds nothing, this one follows a null pointer. -/
theorem builds_differ : (((ClevelHash.obj ⟨hash64shift, 2, 2⟩).execAll [(1, .insert 7 70 16)]
        (ClevelHash.start fun _ => 0 : ClevelHash.Mem Word Nat)).map fun x => (x.1, x.2.cur)) =
      some ([{ expanded := false }], ⟨1, 0, false⟩) ∧
    (((obj ⟨hash64shift, 2, 2⟩).execAll [(1, .insert 7 70 16)]
        (start (fun _ => 0) fun _ => 0 : Mem Word Nat)).map fun x => (x.1, x.2.table.cur)) =
      some ([{ expanded := true }], ⟨2, 0, true⟩) ∧
    (((ClevelHash.obj ⟨hash64shift, 2, 2⟩).execAll [(1, .search 7)]
        (ClevelHash.start fun _ => 0 : ClevelHash.Mem Word Nat)).map fun x => x.1) = some [{}] ∧
    (((obj ⟨hash64shift, 2, 2⟩).execAll [(1, .search 7)]
        (start (fun _ => 0) fun _ => 0 : Mem Word Nat)).map fun x => x.1) = none := by
  decide +kernel

end ShmPcc.ClevelOpt
