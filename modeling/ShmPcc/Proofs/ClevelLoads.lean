import ShmPcc.Proofs.ClevelTable

/-!
# Code of the table that only loads

`search`, the walks along the levels and the search for a vacancy change nothing: each of
their accesses is a load. `find` and `erase` are loads and, where they meet a duplicate or the
key, `del_dup` and one step of `erase`: what is to be said of all their accesses is said of
these two.
-/

namespace ShmPcc.ClevelHash

variable {K T : Type} {H : Table K} {key : K}

def Site.isLoad : Site → Bool
  | .metaLoad | .upLoad _ | .slotLoad _ | .entryLoad _ | .expandBucket => true
  | _ => false

def Loads (l : Site) (m m' : Mem K T) : Prop := l.isLoad = true ∧ m' = m

theorem load_loads {α : Type} {l : Site} {f : Mem K T → α} (hl : l.isLoad = true) :
    (Prog.read l f).Within Loads :=
  fun _ => ⟨⟨hl, rfl⟩, trivial⟩

theorem loadEntry_loads {a : Word} : (loadEntry a : Code K T (K × T)).Within Loads := by
  intro m
  refine ⟨⟨rfl, rfl⟩, ?_⟩
  dsimp only
  split <;> trivial

theorem collectLevels_loads {mt : Meta} : ∀ n li,
    (collectLevels mt n li : Code K T (List Nat)).Within Loads := by
  intro n
  induction n with
  | zero => exact fun _ => trivial
  | succ n ih =>
    intro li
    refine .bind (load_loads rfl) fun up => ?_
    split
    · trivial
    · split
      · exact .bind (ih _) fun _ => trivial
      · trivial

theorem countLevels_loads {mt : Meta} : ∀ fuel li n,
    (countLevels mt fuel li n : Code K T Nat).Within Loads := by
  intro fuel
  induction fuel with
  | zero => exact fun _ _ => trivial
  | succ fuel ih =>
    intro li n
    rw [countLevels]
    split
    · trivial
    · refine .bind (load_loads rfl) fun up => ?_
      split
      · exact ih _ _
      · trivial

theorem emptyInBucket_meets {level bucket : Nat} : ∀ n j, j + n ≤ assocNum →
    (emptyInBucket level bucket n j : Code K T (Option Nat)).Meets Loads
      fun r => ∀ i, r = some i → i < assocNum := by
  intro n
  induction n with
  | zero => exact fun _ _ => nofun
  | succ n ih =>
    intro j hj
    refine .bind (load_loads rfl).meets fun w _ => ?_
    split
    · intro i h
      injection h with h
      omega
    · exact ih _ (by omega)

/-! ## Finding a vacancy -/

/-- A vacancy that was found is a slot of the key in a level up to `hi`. -/
def Vacant (H : Table K) (key : K) (hi : Nat) (f : Find) : Prop :=
  f.result.isVacancy = true →
    ∃ q, f.e = some q ∧ addr f.oldE = 0 ∧ H.IsSlot key q ∧ q.level ≤ hi

theorem Vacant.mono {hi hi' : Nat} {f : Find} (h : Vacant H key hi f) (hle : hi ≤ hi') :
    Vacant H key hi' f := fun hv => by
  obtain ⟨q, he, ha, hs, hl⟩ := h hv
  exact ⟨q, he, ha, hs, Nat.le_trans hl hle⟩

def Find.Vacant (f : Find) : Prop := f.result.isVacancy = true → addr f.oldE = 0

theorem Vacant.vacant {hi : Nat} {f : Find} (h : Vacant H key hi f) : f.Vacant := fun hv => by
  obtain ⟨_, _, ha, _⟩ := h hv
  exact ha

/-- What `find_empty_slot` returns: never that the key was found. -/
def Emptied (H : Table K) (key : K) (hi : Nat) (f : Find) : Prop :=
  Vacant H key hi f ∧ f.result.isFound = false

theorem emptied_vacant {side : Side} {hi cl b j n : Nat} (hb : H.IsBucket key cl b)
    (hj : j < assocNum) (hl : cl ≤ hi) : Emptied H key hi (.vacant side ⟨cl, b, j⟩ n) :=
  ⟨fun _ => ⟨_, rfl, addr_zero, ⟨hb, hj⟩, hl⟩, by cases side <;> rfl⟩

theorem emptyInLevels_meets (hi : Nat) : ∀ levels, (∀ cl ∈ levels, cl ≤ hi) →
    (emptyInLevels H key levels : Code K T Find).Meets Loads (Emptied H key hi) := by
  intro levels
  induction levels with
  | nil => exact fun _ => ⟨nofun, rfl⟩
  | cons cl rest ih =>
    intro hle
    have hcl := hle cl (.head _)
    refine .bind (emptyInBucket_meets _ _ le_rfl) fun l hl =>
      .bind (emptyInBucket_meets _ _ le_rfl) fun r hr => ?_
    split
    · exact ih fun c hc => hle c (.tail _ hc)
    · exact emptied_vacant (.inl rfl) (hl _ rfl) hcl
    · exact emptied_vacant (.inr rfl) (hr _ rfl) hcl
    · split
      · exact emptied_vacant (.inl rfl) (hl _ rfl) hcl
      · exact emptied_vacant (.inr rfl) (hr _ rfl) hcl

theorem le_sum_levels (levels : List Nat) : ∀ cl ∈ levels, cl ≤ levels.sum :=
  fun _ => List.le_sum_of_mem

theorem findEmptySlotLoop_vacancy : ∀ n ptr mt,
    (findEmptySlotLoop H key n ptr mt : Code K T _).Meets Loads
      fun r => r.1.result.isFound = false ∧ r.1.Vacant := by
  intro n
  induction n with
  | zero => exact fun _ _ => trivial
  | succ n ih =>
    intro ptr mt
    refine .bind (collectLevels_loads _ _).meets fun levels _ =>
      .bind (emptyInLevels_meets _ _ (le_sum_levels _)) fun f hf =>
        .bind (load_loads rfl).meets fun tmp _ => ?_
    split
    · exact ⟨hf.2, hf.1.vacant⟩
    · exact ih _ _

theorem updateRedo_loads {f : Find} {ptr : Nat} {tmp : Nat × Meta} :
    (updateRedo f ptr tmp : Code K T Bool).Within Loads := by
  rw [updateRedo]
  split
  · trivial
  · split
    · split
      · exact .bind (load_loads rfl) fun _ => trivial
      · trivial
    · trivial

theorem loadNeighbour_loads {level bucket : Nat} :
    (loadNeighbour level bucket : Code K T Word).Within Loads := by
  rw [loadNeighbour]
  split <;> exact load_loads rfl

variable [DecidableEq K]

theorem searchBucket_within {R : Site → Mem K T → Mem K T → Prop} (hslot : ∀ q m, R (.slotLoad q) m m)
    (hentry : ∀ a m, R (.entryLoad a) m m) {level bucket : Nat} : ∀ n j,
    (searchBucket H key level bucket n j).Within R := by
  intro n
  induction n with
  | zero => exact fun _ => trivial
  | succ n ih =>
    intro j
    refine .bind (fun m => ⟨hslot _ m, trivial⟩) fun w => ?_
    split
    · refine .bind (fun m => ⟨hentry _ m, ?_⟩) fun kv => ?_
      · dsimp only
        split <;> trivial
      · split
        · trivial
        · exact ih _
    · exact ih _

theorem searchBucket_loads {level bucket : Nat} : ∀ n j,
    (searchBucket H key level bucket n j : Code K T _).Within Loads :=
  searchBucket_within (fun _ _ => ⟨rfl, rfl⟩) fun _ _ => ⟨rfl, rfl⟩

theorem searchLevels_loads {mt : Meta} : ∀ n li i,
    (searchLevels H key mt n li i : Code K T _).Within Loads := by
  intro n
  induction n with
  | zero => exact fun _ _ => trivial
  | succ n ih =>
    intro li i
    refine .bind (searchBucket_loads _ _) fun f => ?_
    split
    · trivial
    · refine .bind (searchBucket_loads _ _) fun r => ?_
      split
      · trivial
      · refine .bind (load_loads rfl) fun up => ?_
        split
        · trivial
        · split
          · exact ih _ _
          · trivial

theorem searchLoop_loads : ∀ n ptr mt, (searchLoop H key n ptr mt : Code K T _).Within Loads := by
  intro n
  induction n with
  | zero => exact fun _ _ => trivial
  | succ n ih =>
    intro ptr mt
    refine .bind (searchLevels_loads _ _ _) fun r => ?_
    split
    · trivial
    · refine .bind (load_loads rfl) fun tmp => ?_
      split
      · trivial
      · exact ih _ _

theorem search_loads : (search H key : Code K T _).Within Loads :=
  .bind (load_loads rfl) fun _ => searchLoop_loads _ _ _

/-- What a pass of `find` that does not look for duplicates leaves. -/
def VacantVisit (H : Table K) (key : K) (hi : Nat) : Visit → Prop
  | .next f _ | .done f => Vacant H key hi f
  | .retry _ => False

section Vacancy

variable {t i hi : Nat} {track foundEmpty : Bool} {levels : List Nat} {side : Side} {f : Find}

theorem visitSlot_vacant {q : Slot} (hq : H.IsSlot key q) (hl : q.level ≤ hi) (hf : Vacant H key hi f) :
    (visitSlot H t ⟨key, false, track⟩ levels side i q f foundEmpty : Code K T Visit).Meets Loads
      (VacantVisit H key hi) := by
  refine .bind (load_loads rfl).meets fun w _ => ?_
  split
  · next ha =>
    split
    · split
      · exact hf
      · exact fun _ => ⟨q, rfl, ha, hq, hl⟩
    · exact hf
  · split
    · exact hf
    · refine .bind loadEntry_loads.meets fun kv _ => ?_
      split
      · exact hf
      · intro hv
        cases side <;> cases hv

theorem visitBucket_vacant {level bucket : Nat} (hb : H.IsBucket key level bucket) (hl : level ≤ hi) :
    ∀ n j f foundEmpty, j + n ≤ assocNum → Vacant H key hi f →
      (visitBucket H t ⟨key, false, track⟩ levels side i level bucket n j f foundEmpty :
        Code K T Visit).Meets Loads (VacantVisit H key hi) := by
  intro n
  induction n with
  | zero => exact fun _ _ _ _ hf => hf
  | succ n ih =>
    intro j f foundEmpty hj hf
    refine .bind (visitSlot_vacant ⟨hb, show j < assocNum by omega⟩ hl hf) fun v hv => ?_
    cases v with
    | next f e => exact ih _ _ _ (by omega) hv
    | done f => exact hv
    | retry f => exact hv.elim

theorem visitLevels_vacant (hi : Nat) : ∀ rest i f, (∀ cl ∈ rest, cl ≤ hi) → Vacant H key hi f →
    (visitLevels H t ⟨key, false, track⟩ levels rest i f : Code K T Visit).Meets Loads
      (VacantVisit H key hi) := by
  intro rest
  induction rest with
  | nil => exact fun _ _ _ hf => hf
  | cons cl rest ih =>
    intro i f hle hf
    have hcl := hle cl (.head _)
    refine .bind (visitBucket_vacant (.inl rfl) hcl _ _ _ _ le_rfl hf) fun v hv => ?_
    cases v with
    | done f => exact hv
    | retry f => exact hv.elim
    | next f e =>
      refine .bind (visitBucket_vacant (.inr rfl) hcl _ _ _ _ le_rfl hv) fun v hv => ?_
      cases v with
      | done f => exact hv
      | retry f => exact hv.elim
      | next f e => exact ih _ _ (fun c hc => hle c (.tail _ hc)) hv

end Vacancy

/-! ## `find` and `erase` -/

/-- A judgement that holds of loads and of what is put together from code it holds of. -/
structure Walks (J : (α : Type) → Code K T α → Prop) : Prop where
  loads {α : Type} {p : Code K T α} (hp : p.Within Loads) : J α p
  bind {α β : Type} {p : Code K T α} {k : α → Code K T β} (hp : J α p) (hk : ∀ a, J β (k a)) :
    J β (p >>= k)

variable {J : (α : Type) → Code K T α → Prop} {t : Nat} {query : Query K}

section Find

variable (hJ : Walks J) (hdup : ∀ p1 p2 e1 e2, J _ (delDup t p1 p2 e1 e2))

include hJ hdup

theorem Walks.visitSlot {levels : List Nat} {side : Side} {i : Nat} {q : Slot} {f : Find} {b : Bool} :
    J _ (visitSlot H t query levels side i q f b) := by
  refine hJ.bind (hJ.loads (load_loads rfl)) fun w => ?_
  split
  · split
    · split <;> exact hJ.loads trivial
    · exact hJ.loads trivial
  · split
    · exact hJ.loads trivial
    · refine hJ.bind (hJ.loads loadEntry_loads) fun kv => ?_
      split
      · exact hJ.loads trivial
      · split
        · exact hJ.loads trivial
        · split
          · split
            · exact hJ.loads trivial
            · split
              · exact hJ.loads trivial
              · exact hJ.bind (hdup ..) fun _ => hJ.loads trivial
          · exact hJ.loads trivial

theorem Walks.visitBucket {levels : List Nat} {side : Side} {i level bucket : Nat} :
    ∀ n j f b, J _ (visitBucket H t query levels side i level bucket n j f b) := by
  intro n
  induction n with
  | zero => exact fun _ _ _ => hJ.loads trivial
  | succ n ih =>
    intro j f b
    refine hJ.bind (hJ.visitSlot hdup) fun v => ?_
    split
    · exact ih _ _ _
    · exact hJ.loads trivial
    · exact hJ.loads trivial

theorem Walks.visitLevels {levels : List Nat} :
    ∀ rest i f, J _ (visitLevels H t query levels rest i f) := by
  intro rest
  induction rest with
  | nil => exact fun _ _ => hJ.loads trivial
  | cons cl rest ih =>
    intro i f
    refine hJ.bind (hJ.visitBucket hdup _ _ _ _) fun v => ?_
    split
    · exact hJ.loads trivial
    · exact hJ.loads trivial
    · refine hJ.bind (hJ.visitBucket hdup _ _ _ _) fun v => ?_
      split
      · exact hJ.loads trivial
      · exact hJ.loads trivial
      · exact ih _ _

theorem Walks.findLoop : ∀ n ptr mt last, J _ (findLoop H t query n ptr mt last) := by
  intro n
  induction n with
  | zero => exact fun _ _ _ => hJ.loads trivial
  | succ n ih =>
    intro ptr mt last
    refine hJ.bind (hJ.loads (collectLevels_loads _ _)) fun levels =>
      hJ.bind (hJ.visitLevels hdup _ _ _) fun v => ?_
    split
    · exact hJ.loads trivial
    · exact ih _ _ _
    · refine hJ.bind (hJ.loads (load_loads rfl)) fun tmp => ?_
      split
      · exact hJ.loads trivial
      · exact ih _ _ _

end Find

section Erase

variable (hJ : Walks J) (hslot : ∀ ptr i q, J _ (eraseSlot H t key ptr i q))

include hJ hslot

theorem Walks.eraseBucket {ptr i level bucket : Nat} :
    ∀ n j b, J _ (eraseBucket H t key ptr i level bucket n j b) := by
  intro n
  induction n with
  | zero => exact fun _ _ => hJ.loads trivial
  | succ n ih => exact fun j b => hJ.bind (hslot ..) fun _ => ih _ _

theorem Walks.eraseLevels {ptr : Nat} {mt : Meta} :
    ∀ n li i b, J _ (eraseLevels H t key ptr mt n li i b) := by
  intro n
  induction n with
  | zero => exact fun _ _ _ => hJ.loads trivial
  | succ n ih =>
    intro li i b
    refine hJ.bind (hJ.eraseBucket hslot _ _ _) fun _ =>
      hJ.bind (hJ.eraseBucket hslot _ _ _) fun _ => hJ.bind (hJ.loads (load_loads rfl)) fun up => ?_
    split
    · exact hJ.loads trivial
    · split
      · exact ih _ _ _
      · exact hJ.loads trivial

theorem Walks.eraseLoop : ∀ n ptr mt b, J _ (eraseLoop H t key n ptr mt b) := by
  intro n
  induction n with
  | zero => exact fun _ _ _ => hJ.loads trivial
  | succ n ih =>
    intro ptr mt b
    refine hJ.bind (hJ.eraseLevels hslot _ _ _ _) fun s =>
      hJ.bind (hJ.loads (load_loads rfl)) fun tmp => ?_
    split
    · exact hJ.loads trivial
    · exact ih _ _ _

end Erase

end ShmPcc.ClevelHash
