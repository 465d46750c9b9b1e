import ShmPcc.Ref.ClevelIndex

/-!
# Which buckets `erase` and `generic_update` read

Both compute two indices, in the lower and in the upper half of a level. The bucket in front
of the second one is always there. The one in front of the first is not when the first is 0:
`generic_update` asks for that before it notes the bucket, and `erase` asks only while the
table is resizing.

Nothing is assumed of what is read, so each statement is about every memory and every
interference: `Meets` goes through the code and asks at each access for the index, and at
each return for what the caller needs to know of the result.
-/

namespace ShmPcc.ClevelIndex

open ClevelHash (Word Meta FCode Side addr partialOf setPartial firstIndex secondIndex maxLevel assocNum)

variable {K : Type} {H : Table K} {key : K}

/-- The accesses with a bucket of their level. -/
def Bounded (H : Table K) (l : Access) (_ _ : Mem K) : Prop := l.InBounds H

/-! ## The indices -/

theorem Table.half_pos (H : Table K) (level : Nat) : 0 < H.capacity level / 2 := by
  obtain ⟨k, hk⟩ := H.pow level
  rw [hk, Nat.pow_succ, Nat.mul_div_cancel _ (by decide)]
  exact Nat.two_pow_pos k

/-- The slot is in a bucket of its level. -/
def Slot.Ok (H : Table K) (q : Slot) : Prop := 0 ≤ q.bucket ∧ q.bucket < H.capacity q.level

theorem fIdx_ok (level j : Nat) : Slot.Ok H ⟨level, H.fIdx key level, j⟩ := by
  have hmod := Nat.mod_lt (H.hasher key).toNat (H.half_pos level)
  have hhalf := Nat.div_le_self (H.capacity level) 2
  simp only [Slot.Ok, Table.fIdx, firstIndex]
  omega

theorem sIdx_ok (level j : Nat) : Slot.Ok H ⟨level, H.sIdx key level, j⟩ ∧ 0 < H.sIdx key level := by
  have hpos := H.half_pos level
  simp only [Slot.Ok, Table.sIdx, secondIndex]
  generalize (BitVec.ofNat 64 _ ^^^ _).toNat = x
  have hmod := Nat.mod_lt x hpos
  omega

theorem Slot.Ok.before {q : Slot} (h : q.Ok H) (hne : q.bucket ≠ 0) : Slot.Ok H ⟨q.level, q.bucket - 1, 0⟩ := by
  simp only [Slot.Ok] at *
  omega

/-! ## Accesses -/

section Accesses

variable {α : Type}

theorem read_meets {f : Mem K → α} :
    (Prog.read .other f : Code K α).Meets (Bounded H) fun _ => True := fun _ => ⟨trivial, trivial⟩

theorem write_meets {u : Mem K → Mem K} :
    (Prog.write .other u : Code K Unit).Meets (Bounded H) fun _ => True := fun _ => ⟨trivial, trivial⟩

theorem loadSlot_meets {q : Slot} (hq : q.Ok H) :
    (loadSlot q : Code K Word).Meets (Bounded H) fun _ => True := fun _ => ⟨hq, trivial⟩

theorem casSlot_meets {q : Slot} {e d : Word} (hq : q.Ok H) :
    (casSlot q e d : Code K Bool).Meets (Bounded H) fun _ => True := fun _ => ⟨hq, trivial⟩

theorem loadEntry_meets {a : Word} : (loadEntry a : Code K K).Meets (Bounded H) fun _ => True := by
  intro m
  refine ⟨trivial, ?_⟩
  dsimp only
  split <;> trivial

end Accesses

variable [DecidableEq K]

/-! ## `erase` -/

/-- A deletion in slot `q` may be followed by an access to the bucket in front. -/
def Checked (H : Table K) (ptr i : Nat) (q : Slot) : Prop :=
  i = 0 → (H.metas ptr).isResizing = false → q.bucket ≠ 0

theorem eraseSlot_meets {ptr i : Nat} {q : Slot} (hq : q.Ok H) (hchecked : Checked H ptr i q) :
    (eraseSlot H key ptr i q).Meets (Bounded H) fun _ => True := by
  refine (loadSlot_meets hq).bind fun w _ => ?_
  split
  · refine loadEntry_meets.bind fun k _ => ?_
    split
    · refine (casSlot_meets hq).bind fun done _ => ?_
      split
      · refine write_meets.bind fun _ _ => read_meets.bind fun tmp _ => ?_
        split
        · trivial
        · next hptr =>
          obtain rfl : tmp = ptr := by simpa using hptr
          split
          · next hi =>
            split
            · trivial
            · next hno =>
              refine (loadSlot_meets (hq.before fun h0 => ?_)).bind fun _ _ => trivial
              exact hchecked hi (by simpa [h0] using hno) h0
          · trivial
      · trivial
    · trivial
  · trivial

theorem eraseBucket_meets {ptr i level : Nat} {bucket : Int}
    (hok : ∀ j, Slot.Ok H ⟨level, bucket, j⟩) (hchecked : ∀ j, Checked H ptr i ⟨level, bucket, j⟩) :
    ∀ n j b, (eraseBucket H key ptr i level bucket n j b).Meets (Bounded H) fun _ => True := by
  intro n
  induction n with
  | zero => exact fun _ _ => trivial
  | succ n ih => exact fun j b => (eraseSlot_meets (hok j) (hchecked j)).bind fun _ _ => ih _ _

/-- The first index of the key is not 0 at the bottom of a meta that is not resizing. -/
def Guarded (H : Table K) (key : K) (ptr : Nat) : Prop :=
  (H.metas ptr).isResizing = false → H.fIdx key (H.metas ptr).lastLevel ≠ 0

theorem eraseLevels_meets {ptr : Nat} (hguard : Guarded H key ptr) : ∀ n li i b,
    (i = 0 → li = (H.metas ptr).lastLevel) →
    (eraseLevels H key ptr n li i b).Meets (Bounded H) fun _ => True := by
  intro n
  induction n with
  | zero => exact fun _ _ _ _ => trivial
  | succ n ih =>
    intro li i b hli
    have hfirst : ∀ j, Checked H ptr i ⟨li, H.fIdx key li, j⟩ := by
      intro j hi hres
      rw [hli hi]
      exact hguard hres
    have hsecond : ∀ j, Checked H ptr i ⟨li, H.sIdx key li, j⟩ :=
      fun j _ _ => Int.ne_of_gt (sIdx_ok li j).2
    refine (eraseBucket_meets (fIdx_ok li) hfirst _ _ _).bind fun s _ => ?_
    refine (eraseBucket_meets (fun j => (sIdx_ok li j).1) hsecond _ _ _).bind fun s _ => ?_
    refine read_meets.bind fun next _ => ?_
    split
    · trivial
    · split
      · exact ih _ _ _ nofun
      · trivial

theorem eraseLoop_meets (hguard : ∀ ptr, Guarded H key ptr) : ∀ n ptr b,
    (eraseLoop H key n ptr b).Meets (Bounded H) fun _ => True := by
  intro n
  induction n with
  | zero => exact fun _ _ => trivial
  | succ n ih =>
    intro ptr b
    refine (eraseLevels_meets (hguard ptr) _ _ _ _ fun _ => rfl).bind fun s _ => ?_
    refine read_meets.bind fun tmp _ => ?_
    split
    · trivial
    · exact ih _ _

/-! ## `generic_update` -/

/-- What `find` notes on its way. -/
structure Find.Ok (H : Table K) (levels : List Nat) (f : Find) : Prop where
  e : ∀ q, f.e = some q → q.Ok H
  last : ∀ q, f.lastBucketEntry = some q → q.Ok H
  idx : f.result.isFound = true → ∀ level, levels[f.levelNum]? = some level →
    Slot.Ok H ⟨level, f.idx, f.slotIdx⟩

def Visit.Ok (H : Table K) (levels : List Nat) : Visit → Prop
  | .next f _ | .retry f => f.Ok H levels

variable {levels : List Nat} {f : Find}

omit [DecidableEq K] in
theorem Find.Ok.noteLast {q : Slot} (hf : f.Ok H levels) (hq : q.Ok H) :
    ∀ q', f.noteLast q = some q' → q'.Ok H := by
  intro q' h
  unfold Find.noteLast at h
  split at h
  · next hne =>
    cases h
    exact hq.before hne
  · exact hf.last q' h

theorem delDup_meets {p1 p2 : Slot} {e1 e2 : Word} (h1 : p1.Ok H) (h2 : p2.Ok H) :
    (delDup p1 p2 e1 e2 : Code K Unit).Meets (Bounded H) fun _ => True := by
  refine (loadSlot_meets h1).bind fun w1 _ => ?_
  split
  · trivial
  · refine (loadSlot_meets h2).bind fun w2 _ => ?_
    split
    · trivial
    · split
      · split
        · exact (casSlot_meets h2).bind fun _ _ => trivial
        · refine loadEntry_meets.bind fun k1 _ => loadEntry_meets.bind fun k2 _ => ?_
          split
          · refine (casSlot_meets h2).bind fun done _ => ?_
            split
            · exact write_meets
            · trivial
          · trivial
      · trivial

theorem visitSlot_meets {side : Side} {i : Nat} {q : Slot} {b : Bool} (hf : f.Ok H levels)
    (hq : q.Ok H) (hi : levels[i]? = some q.level) :
    (visitSlot H key levels side i q f b).Meets (Bounded H) (Visit.Ok H levels) := by
  refine (loadSlot_meets hq).bind fun w _ => ?_
  have hnoted : ∀ level, levels[i]? = some level → Slot.Ok H ⟨level, q.bucket, q.slot⟩ := by
    intro level hlevel
    cases hi.symm.trans hlevel
    exact hq
  split
  · split
    · split
      · exact hf
      · refine ⟨?_, hf.noteLast hq, fun _ => hnoted⟩
        intro q' h
        cases h
        exact hq
    · exact hf
  · split
    · exact hf
    · refine loadEntry_meets.bind fun k _ => ?_
      split
      · exact hf
      · split
        · next hfound =>
          split
          · trivial
          · next level hlevel =>
            split
            · trivial
            · exact (delDup_meets hq (hf.idx hfound level hlevel)).bind fun _ _ => hf
        · refine ⟨?_, hf.noteLast hq, fun _ => hnoted⟩
          intro q' h
          cases h
          exact hq

theorem visitBucket_meets {side : Side} {i level : Nat} {bucket : Int}
    (hok : ∀ j, Slot.Ok H ⟨level, bucket, j⟩) (hi : levels[i]? = some level) : ∀ n j f b,
    f.Ok H levels →
    (visitBucket H key levels side i level bucket n j f b).Meets (Bounded H) (Visit.Ok H levels) := by
  intro n
  induction n with
  | zero => exact fun _ _ _ hf => hf
  | succ n ih =>
    intro j f b hf
    refine (visitSlot_meets hf (hok j) hi).bind fun v hv => ?_
    split
    · exact ih _ _ _ hv
    · exact hv

theorem visitLevels_meets : ∀ rest i f, (∀ k cl, rest[k]? = some cl → levels[i + k]? = some cl) →
    f.Ok H levels → (visitLevels H key levels rest i f).Meets (Bounded H) (Visit.Ok H levels) := by
  intro rest
  induction rest with
  | nil => exact fun _ _ _ hf => hf
  | cons cl rest ih =>
    intro i f hrest hf
    have hcl : levels[i]? = some cl := hrest 0 cl rfl
    refine (visitBucket_meets (fIdx_ok cl) hcl _ _ _ _ hf).bind fun v hv => ?_
    split
    · exact hv
    · refine (visitBucket_meets (fun j => (sIdx_ok cl j).1) hcl _ _ _ _ hv).bind fun v hv => ?_
      split
      · exact hv
      · refine ih _ _ ?_ hv
        intro k cl' hk
        have h := hrest (k + 1) cl' hk
        rwa [show i + (k + 1) = i + 1 + k by omega] at h

omit [DecidableEq K] in
theorem collectLevels_meets {first : Nat} : ∀ n li,
    (collectLevels first n li : Code K (List Nat)).Meets (Bounded H) fun _ => True := by
  intro n
  induction n with
  | zero => exact fun _ => trivial
  | succ n ih =>
    intro li
    refine read_meets.bind fun next _ => ?_
    split
    · trivial
    · split
      · exact (ih _).bind fun _ _ => trivial
      · trivial

/-- What `generic_update` uses of the result of `find`. -/
def Find.Usable (H : Table K) (f : Find) : Prop :=
  (∀ q, f.e = some q → q.Ok H) ∧ ∀ q, f.lastBucketEntry = some q → q.Ok H

theorem findLoop_meets : ∀ n ptr last, (∀ q, last = some q → Slot.Ok H q) →
    (findLoop H key n ptr last).Meets (Bounded H) (Find.Usable H) := by
  intro n
  induction n with
  | zero => exact fun _ _ _ => trivial
  | succ n ih =>
    intro ptr last hlast
    refine (collectLevels_meets _ _).bind fun levels _ => ?_
    have hstart : Find.Ok H levels { lastBucketEntry := last } := ⟨fun _ h => (by cases h), hlast, nofun⟩
    refine (visitLevels_meets levels 0 _ (fun k cl hk => by simpa using hk) hstart).bind fun v hv => ?_
    split
    · exact ih _ _ hv.last
    · refine read_meets.bind fun tmp _ => ?_
      split
      · exact ⟨hv.e, hv.last⟩
      · exact ih _ _ hv.last

omit [DecidableEq K] in
theorem updateRedo_meets {ptr tmp : Nat} (hf : f.Usable H) :
    (updateRedo H f ptr tmp).Meets (Bounded H) fun _ => True := by
  unfold updateRedo
  split
  · trivial
  · split
    · split
      · next q hq => exact (loadSlot_meets (hf.2 q hq)).bind fun _ _ => trivial
      · trivial
    · trivial

theorem updateLoop_meets {kv created : Word} : ∀ n ptr b,
    (updateLoop H key kv created n ptr b).Meets (Bounded H) fun _ => True := by
  intro n
  induction n with
  | zero => exact fun _ _ => trivial
  | succ n ih =>
    intro ptr b
    refine (findLoop_meets _ _ none fun _ h => by cases h).bind fun f hf => ?_
    split
    · split
      · trivial
      · split
        · trivial
        · next e he =>
          refine (casSlot_meets (hf.1 e he)).bind fun done _ => ?_
          split
          · refine read_meets.bind fun tmp _ => ?_
            refine (updateRedo_meets hf).bind fun redo _ => ?_
            split
            · exact ih _ _
            · trivial
          · exact ih _ _
    · refine Prog.Meets.bind (P := fun _ => True) ?_ fun _ _ => trivial
      split
      · exact write_meets
      · trivial

theorem genericUpdate_meets {kv : Word} :
    (genericUpdate H key kv).Meets (Bounded H) fun _ => True :=
  write_meets.bind fun _ _ => read_meets.bind fun _ _ => updateLoop_meets _ _ _

/-! ## The result -/

/-- Two levels that are not resizing, and one key with the given hash. -/
def twoLevels (hash : Word) : Table Unit where
  hasher _ := hash
  capacity level := 2 ^ (level + 2)
  pow level := ⟨level + 1, rfl⟩
  metas _ := ⟨1, 0, false⟩
  retries := 2

/-- The key with hash 0 is in the first slot of bucket 0 of the bottom level. -/
def firstSlotTaken : Mem Unit where
  metaPtr := 0
  up level := if level = 0 then some 1 else none
  slots q := if q = ⟨0, 0, 0⟩ then 16 else 0
  entries a := if a = 16 then some () else none

end ShmPcc.ClevelIndex
