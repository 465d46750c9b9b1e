import ShmPcc.Ref.NtVariants

/-!
# The variants of nt against an atomic variable

Every variant keeps the value an atomic variable would have, whatever its operations return:
the copies of `NT_SIM` are written before they are read when nothing is left to the caches,
and the queue only makes the caller wait. So a variant gives the results of the variable on a
sequence of calls exactly if each of the calls does, and it is enough to know for which
arguments, and on which values, one call does.
-/

namespace ShmPcc.NtVariants

variable {w : Nat} {σ : Type} {c : Variant w σ} {value : σ → BitVec w}
  {agrees : Op w → BitVec w → Prop} {signed : Bool}

/-- The calls agree, each on the value the atomic variable has when it is made. -/
def Along (agrees : Op w → BitVec w → Prop) : List (Op w) → BitVec w → Prop
  | [], _ => True
  | op :: ops, v => agrees op v ∧ Along agrees ops (atomic op v).2

theorem Along.of_forall (h : ∀ op v, agrees op v) (ops : List (Op w)) (v : BitVec w) :
    Along agrees ops v := by
  induction ops generalizing v with
  | nil => trivial
  | cons op ops ih => exact ⟨h op v, ih _⟩

/-- The variant holds the value of the atomic variable, and an operation returns what it does
on the variable just where `agrees` says so. -/
structure Follows (c : Variant w σ) (value : σ → BitVec w) (agrees : Op w → BitVec w → Prop) :
    Prop where
  construct : ∀ v, value (c.construct v) = v
  exec : ∀ {op s r s'}, c.exec op s = some (r, s') → value s' = (atomic op (value s)).2
  returns : ∀ op s, (∃ s', c.exec op s = some ((atomic op (value s)).1, s')) ↔ agrees op (value s)

theorem Follows.results_iff (h : Follows c value agrees) (ops : List (Op w)) (s : σ) :
    c.results ops s = some (atomicResults ops (value s)) ↔ Along agrees ops (value s) := by
  induction ops generalizing s with
  | nil => simp [Variant.results, atomicResults, Along]
  | cons op ops ih =>
    rw [Variant.results, atomicResults, Along, ← h.returns op s]
    cases hexec : c.exec op s with
    | none => simp
    | some p =>
      obtain ⟨r, s'⟩ := p
      rw [← h.exec hexec, ← ih s', and_comm]
      simp

theorem Follows.results_construct_iff (h : Follows c value agrees) (ops : List (Op w))
    (v : BitVec w) :
    c.results ops (c.construct v) = some (atomicResults ops v) ↔ Along agrees ops v := by
  have hrun := h.results_iff ops (c.construct v)
  rwa [h.construct] at hrun

/-- A variant that is another one with more in its state follows the variable as that one
does. -/
theorem Follows.extend {τ : Type} {c' : Variant w τ} (h : Follows c value agrees) (f : τ → σ)
    (hconstruct : ∀ v, f (c'.construct v) = c.construct v)
    (hexec : ∀ op s, (c'.exec op s).map (fun p => (p.1, f p.2)) = c.exec op (f s)) :
    Follows c' (fun s => value (f s)) agrees where
  construct v := by rw [hconstruct, h.construct]
  exec := by
    intro op s r s' hs
    apply h.exec
    rw [← hexec, hs]
    rfl
  returns op s := by
    rw [← h.returns op (f s), ← hexec]
    cases c'.exec op s with
    | none => simp
    | some p =>
      obtain ⟨r, s'⟩ := p
      simp

/-- Enough for a class: each operation takes the value where it goes on the variable, and
what it returns depends on the value alone. -/
theorem Follows.of_returns (returns : Op w → BitVec w → Option (Ret w))
    (hconstruct : ∀ v, value (c.construct v) = v)
    (hexec : ∀ op s, ∃ s', value s' = (atomic op (value s)).2 ∧
      c.exec op s = (returns op (value s)).map (·, s'))
    (hreturns : ∀ op v, returns op v = some (atomic op v).1 ↔ agrees op v) :
    Follows c value agrees where
  construct := hconstruct
  exec := by
    intro op s r s' h
    obtain ⟨t, ht, hs⟩ := hexec op s
    rw [hs, Option.map_eq_some_iff] at h
    obtain ⟨_, _, heq⟩ := h
    cases heq
    exact ht
  returns op s := by
    obtain ⟨t, _, hs⟩ := hexec op s
    rw [hs, ← hreturns]
    cases returns op (value s) with
    | none => simp
    | some r => simp

/-! ## Where one call agrees -/

/-- `fetch_add` returns the old value and the new one alike. -/
def AddsNothing : Op w → BitVec w → Prop
  | .fetchAdd i, _ => i = 0
  | _, _ => True

/-- Undoing the operation on the result does not overflow, and what was subtracted survives
the conversion to 64 bits. -/
def Undone (signed : Bool) : Op w → BitVec w → Prop
  | .fetchAdd i, v => signed → 32 ≤ w → v.saddOverflow i = false
  | .fetchSub i, v => i.toNat < 2 ^ 64 ∧ (signed → 64 < w → v.ssubOverflow i = false)
  | _, _ => True

variable {v : BitVec w}

theorem along_addsNothing {ops : List (Op w)} :
    Along AddsNothing ops v ↔ ∀ i, Op.fetchAdd i ∈ ops → i = 0 := by
  induction ops generalizing v with
  | nil => simp [Along]
  | cons op ops ih =>
    rw [Along, ih]
    cases op with
    | fetchAdd i => simp [AddsNothing]
    | _ => simp [AddsNothing]

variable {i : BitVec w}

theorem addFetch_eq_self_iff : addFetch v i = v ↔ i = 0 := by
  simp [addFetch]

/-! ## Undoing an operation -/

/-- The difference is in range just if the sum was: both say that no wrapping took place. -/
theorem ssubOverflow_add : (v + i).ssubOverflow i = v.saddOverflow i := by
  have hv := v.toInt_lt
  have hv' := v.le_toInt
  have hsum := (v + i).toInt_lt
  have hsum' := (v + i).le_toInt
  rw [Bool.eq_iff_iff, ← not_iff_not]
  constructor
  · intro h
    have hsub := BitVec.toInt_sub_of_not_ssubOverflow h
    rw [BitVec.add_sub_cancel] at hsub
    simp only [BitVec.saddOverflow, Bool.or_eq_true, decide_eq_true_eq]
    omega
  · intro h
    have hadd := BitVec.toInt_add_of_not_saddOverflow h
    simp only [BitVec.ssubOverflow, Bool.or_eq_true, decide_eq_true_eq]
    omega

theorem saddOverflow_sub : (v - i).saddOverflow i = v.ssubOverflow i := by
  rw [← ssubOverflow_add, BitVec.sub_add_cancel]

theorem subAssign_addFetch_iff : subAssign signed (addFetch v i) i = some v ↔
      (signed → 32 ≤ w → v.saddOverflow i = false) := by
  rw [subAssign, addFetch, ssubOverflow_add, BitVec.add_sub_cancel]
  simp

/-- Widening and cutting back is the identity, with or without a sign. -/
theorem setWidth_convert_of_le {signed : Bool} {m : Nat} (h : w ≤ m) (i : BitVec w) :
    (convert signed m i).setWidth w = i := by
  cases signed with
  | true =>
    apply BitVec.eq_of_getElem_eq
    intro k hk
    have hkm : k < m := Nat.lt_of_lt_of_le hk h
    simp [convert, BitVec.getElem_signExtend, BitVec.getLsbD_eq_getElem, hk, hkm]
  | false => simp [convert, h]

/-- Only the low 64 bits of what is converted come back. -/
theorem setWidth_convert_iff (signed : Bool) :
    (convert signed 64 i).setWidth w = i ↔ i.toNat < 2 ^ 64 := by
  rcases Nat.le_total w 64 with hw | hw
  · have hlt : i.toNat < 2 ^ 64 := Nat.lt_of_lt_of_le i.isLt (Nat.pow_le_pow_right (by decide) hw)
    exact iff_of_true (setWidth_convert_of_le hw i) hlt
  · -- a narrower type just cuts off
    have hcut : convert signed 64 i = i.setWidth 64 := by
      cases signed with
      | true => exact BitVec.signExtend_eq_setWidth_of_le i hw
      | false => rfl
    have hpow : 2 ^ 64 ≤ 2 ^ w := Nat.pow_le_pow_right (by decide) hw
    rw [hcut, ← BitVec.toNat_inj, BitVec.toNat_setWidth, BitVec.toNat_setWidth]
    have hmod : i.toNat % 2 ^ 64 < 2 ^ 64 := Nat.mod_lt _ (by decide)
    rw [Nat.mod_eq_of_lt (Nat.lt_of_lt_of_le hmod hpow)]
    constructor
    · intro h
      omega
    · intro h
      exact Nat.mod_eq_of_lt h

theorem addAssignUint64_subFetch_iff : addAssignUint64 signed (subFetch v i) i = some v ↔
      i.toNat < 2 ^ 64 ∧ (signed → 64 < w → v.ssubOverflow i = false) := by
  rw [addAssignUint64, subFetch, ← setWidth_convert_iff signed]
  by_cases hw : 64 < w
  · rw [if_pos hw]
    generalize (convert signed 64 i).setWidth w = j
    by_cases hj : j = i
    · subst hj
      simp only [saddOverflow_sub, BitVec.sub_add_cancel]
      simp [hw]
    · -- another summand gives another sum, if it gives one
      have hne : v - i + j ≠ v := by
        intro h
        rw [← BitVec.add_right_inj (v - i), BitVec.sub_add_cancel] at hj
        exact hj h
      simp [hj, hne]
  · have hle : w ≤ 64 := Nat.le_of_not_lt hw
    rw [if_neg hw, BitVec.setWidth_add _ _ hle, setWidth_convert_of_le hle,
      setWidth_convert_of_le hle, BitVec.sub_add_cancel]
    simp [hw]

/-! ## The variants -/

theorem atomic_compareExchangeStrong (expected desired v : BitVec w) :
    atomic (.compareExchangeStrong expected desired) v =
      (.exchanged (compareExchange v expected desired).1 (compareExchange v expected desired).2.2,
        (compareExchange v expected desired).2.1) := by
  simp only [atomic, compareExchange]
  split <;> rfl

theorem plain_follows : Follows (plain : Variant w _) (fun v => v) fun _ _ => True := by
  apply Follows.of_returns fun op v => some (atomic op v).1
  · intro v
    rfl
  · intro op v
    refine ⟨(atomic op v).2, rfl, ?_⟩
    cases op with
    | compareExchangeStrong expected desired => rw [atomic_compareExchangeStrong]; rfl
    | _ => rfl
  · intro op v
    exact iff_true_intro rfl

/-- What `aligned_nt` returns on a value. -/
def alignedReturns : Op w → BitVec w → Option (Ret w)
  | .fetchAdd i, v => some (.value (addFetch v i))
  | op, v => some (atomic op v).1

theorem aligned_follows : Follows (aligned : Variant w _) (fun v => v) AddsNothing := by
  apply Follows.of_returns alignedReturns
  · intro v
    rfl
  · intro op v
    refine ⟨(atomic op v).2, rfl, ?_⟩
    cases op with
    | compareExchangeStrong expected desired =>
      rw [alignedReturns, atomic_compareExchangeStrong]
      · rfl
      · simp
    | _ => rfl
  · intro op v
    cases op with
    | fetchAdd i => simp [alignedReturns, atomic, AddsNothing, addFetch_eq_self_iff]
    | _ => exact iff_true_intro rfl

/-! The queue only makes the caller wait. -/

theorem queued_follows (e : Env) (addr : Nat) (q : Queue) :
    Follows (queued e addr q : Variant w _) Queued.value fun _ _ => True := by
  apply plain_follows.extend Queued.value
  · intro v
    rfl
  · intro op s
    cases op <;> rfl

theorem queuedAligned_follows (e : Env) (addr : Nat) (q : Queue) :
    Follows (queuedAligned e addr q : Variant w _) Queued.value AddsNothing := by
  apply aligned_follows.extend Queued.value
  · intro v
    rfl
  · intro op s
    cases op <;> rfl

/-- What `nt` of `NT_SIM` returns on a value, where it is defined. -/
def simReturns (signed : Bool) : Op w → BitVec w → Option (Ret w)
  | .fetchAdd i, v => (subAssign signed (addFetch v i) i).map .value
  | .fetchSub i, v => (addAssignUint64 signed (subFetch v i) i).map .value
  | op, v => some (atomic op v).1

theorem simReturns_iff (op : Op w) (v : BitVec w) :
    simReturns signed op v = some (atomic op v).1 ↔ Undone signed op v := by
  cases op with
  | fetchAdd i =>
    rw [Undone, ← subAssign_addFetch_iff]
    simp [simReturns, atomic]
  | fetchSub i =>
    rw [Undone, ← addAssignUint64_subFetch_iff]
    simp [simReturns, atomic]
  | _ => exact iff_true_intro rfl

/-- With `nt` set every operation goes to the value and only writes the copy, so nothing about
the copies is needed. -/
theorem sim_exec {count : Nat} {id : Fin (machines count)} {memory : BitVec w} (op : Op w)
    (s : Sim w (machines count)) :
    ∃ s', s'.value = (atomic op s.value).2 ∧
      (sim signed id memory).exec op s = (simReturns signed op s.value).map (·, s') := by
  cases op with
  | load =>
    refine ⟨(s.setCache id s.value).available id, rfl, ?_⟩
    simp [sim, Sim.load, Sim.setCache, Sim.available, simReturns, atomic]
  | store newValue => exact ⟨s.store id true newValue, rfl, rfl⟩
  | fetchAdd i =>
    let result := addFetch s.value i
    refine ⟨({ s with value := result }.setCache id result).available id, rfl, ?_⟩
    simp [sim, Sim.fetchAdd, simReturns, result, Function.comp_def]
  | fetchSub i =>
    let result := subFetch s.value i
    refine ⟨({ s with value := result }.setCache id result).available id, rfl, ?_⟩
    simp [sim, Sim.fetchSub, simReturns, result, Function.comp_def]
  | compareExchangeStrong expected desired =>
    refine ⟨(s.compareExchangeStrong id true expected desired).2.2, ?_, ?_⟩
    · rw [atomic_compareExchangeStrong]
      simp only [Sim.compareExchangeStrong, ite_self, if_true]
      split <;> rfl
    · rw [simReturns, atomic_compareExchangeStrong]
      · simp [sim, Sim.compareExchangeStrong]
      · simp
      · simp

theorem sim_follows (signed : Bool) {count : Nat} (id : Fin (machines count)) (memory : BitVec w) :
    Follows (sim signed id memory) Sim.value (Undone signed) :=
  Follows.of_returns (simReturns signed) (fun _ => rfl) sim_exec simReturns_iff

/-- The last of the four machines there are where none were set up. -/
def lastMachine : Fin (machines 0) := ⟨3, by decide⟩

/-- On every sequence of calls the plain and the queued `nt` return what an atomic variable
does. `NT_SIM` does so exactly if undoing each addition and subtraction is defined and exact,
and `aligned_nt` exactly if nothing is added. -/
theorem nt_variants_agree_iff (signed : Bool) {count : Nat} (id : Fin (machines count))
    (memory : BitVec w) (e : Env) (addr : Nat) (q : Queue) (v : BitVec w) (ops : List (Op w)) :
    plain.results ops (plain.construct v) = some (atomicResults ops v) ∧
    (queued e addr q).results ops ((queued e addr q).construct v) = some (atomicResults ops v) ∧
    ((sim signed id memory).results ops ((sim signed id memory).construct v) =
        some (atomicResults ops v) ↔ Along (Undone signed) ops v) ∧
    (aligned.results ops (aligned.construct v) = some (atomicResults ops v) ↔
        ∀ i, .fetchAdd i ∈ ops → i = 0) ∧
    ((queuedAligned e addr q).results ops ((queuedAligned e addr q).construct v) =
        some (atomicResults ops v) ↔ ∀ i, .fetchAdd i ∈ ops → i = 0) := by
  have hplain := plain_follows.results_construct_iff ops v
  have hqueued := (queued_follows e addr q).results_construct_iff ops v
  have haligned := aligned_follows.results_construct_iff ops v
  have hqueuedAligned := (queuedAligned_follows e addr q).results_construct_iff ops v
  rw [along_addsNothing] at haligned hqueuedAligned
  have hall : Along (fun _ _ => True) ops v := Along.of_forall (fun _ _ => trivial) ops v
  exact ⟨hplain.2 hall, hqueued.2 hall, (sim_follows signed id memory).results_construct_iff ops v,
    haligned, hqueuedAligned⟩

/-- A clock that shows how often it was read, and no compare-and-swap fails. -/
def steady : Env where
  time n := n
  advances n untilTime := ⟨max n untilTime.toNat, by omega, by omega⟩
  spurious _ := 0

def mixed : List (Op 32) :=
  [.fetchSub 3, .fetchAdd 0, .compareExchangeStrong 1 7, .store 9, .compareExchangeStrong 9 4, .load]

theorem nt_variants_agree_iff_mixed :
    (sim true lastMachine 5).results mixed ((sim true lastMachine 5).construct 2) =
      some (atomicResults mixed 2) ∧
    aligned.results mixed (aligned.construct 2) = some (atomicResults mixed 2) ∧
    (queuedAligned steady 64 ⟨0, 0, fun _ => 0⟩).results mixed
        ((queuedAligned steady 64 ⟨0, 0, fun _ => 0⟩).construct 2) =
      some (atomicResults mixed 2) ∧
    atomicResults mixed 2 = [.value 2, .value (-1), .exchanged false (-1), .unit,
      .exchanged true 9, .value 4] := by
  obtain ⟨_, _, hsim, haligned, hqueued⟩ :=
    nt_variants_agree_iff true lastMachine 5 steady 64 ⟨0, 0, fun _ => 0⟩ 2 mixed
  have hadd : ∀ i, Op.fetchAdd i ∈ mixed → i = 0 := by simp [mixed]
  have hundone : Along (Undone true) mixed 2 := by
    simp [mixed, Along, Undone, atomic, BitVec.saddOverflow]
  exact ⟨hsim.2 hundone, haligned.2 hadd, hqueued.2 hadd, by decide⟩

/-- `fetch_add(1)` on an `aligned_nt` of zero returns one. -/
theorem aligned_fetchAdd_differs :
    aligned.results [.fetchAdd 1] (aligned.construct (0 : BitVec 64)) = some [.value 1] ∧
    atomicResults [.fetchAdd 1] (0 : BitVec 64) = [.value 0] := by
  decide

end ShmPcc.NtVariants
