import ShmPcc.Ref.SoftLock

/-!
# Mutual exclusion of the software lock

A client that has waited for another one comes before it: the other has no ticket, or
a later one, and if it is choosing right now it has seen this client's ticket or will
see it. That much survives whatever the other client does, so it is enough to
establish it once. It is not established by one look. The client first finds the other
not choosing, and from then on tickets the other takes are later ones; of the ticket
the other has already, the client learns from three loads with time in between. What
carries the argument from the second load to the third is `Tame`: a ticket that was
not the smaller one is not followed by a smaller one.

Two clients inside the lock would come before each other.
-/

namespace ShmPcc.SoftLock

open Function

variable {m : Mem} {i j u : Nat} {pc pc' : Pc}

/-! ## What clients know -/

/-- A client that is choosing will take a ticket larger than that of client `i`. -/
def Later (i : Nat) (m : Mem) : Pc → Prop
  | .scan k maxNum => k ≤ i ∨ (m.number i : Int) ≤ maxNum
  | .store maxNum => (m.number i : Int) ≤ maxNum
  | _ => True

/-- Client `i` comes before client `j`, which is at `pc'`. -/
def Before (i j : Nat) (pc' : Pc) (m : Mem) : Prop :=
  (m.number j ≠ 0 → m.number i < m.number j ∨ m.number i = m.number j ∧ i < j) ∧ Later i m pc'

def Tame (i j : Nat) (m : Mem) : Prop := m.number j = 0 ∨ m.number i ≤ m.number j

/-- What client `i` at `pc` knows of client `j` at `pc'`. -/
def Known (i : Nat) (pc : Pc) (j : Nat) (pc' : Pc) (m : Mem) : Prop :=
  match pc with
  | .idle | .choose | .scan .. | .store _ | .chosen => True
  | .waitChoosing k => j < k → Before i j pc' m
  | .waitNumber k | .lessOther k => (j < k → Before i j pc' m) ∧ (j = k → Later i m pc')
  | .lessOwn k other => (j < k → Before i j pc' m) ∧
      (j = k → Later i m pc' ∧ (m.number i ≤ other → Tame i j m))
  | .sameOther k => (j < k → Before i j pc' m) ∧ (j = k → Later i m pc' ∧ Tame i j m)
  | .sameOwn k other => (j < k → Before i j pc' m) ∧
      (j = k → Later i m pc' ∧ (other = m.number i ∧ j < i ∨ Before i j pc' m))
  | .critical | .unlock => Before i j pc' m

/-- A client holds a ticket, and whether it is choosing. -/
def Pc.ticket : Pc → Bool
  | .idle | .choose | .scan .. | .store _ => false
  | _ => true

def Pc.choosing : Pc → Bool
  | .scan .. | .store _ | .chosen => true
  | _ => false

def Pc.maxNum : Pc → Int
  | .scan _ maxNum | .store maxNum => maxNum
  | _ => 0

section

variable (numClients : Nat)

structure Own (u : Nat) (pc : Pc) (m : Mem) : Prop where
  id : numClients ≤ u → pc = .idle
  number : m.number u ≠ 0 ↔ pc.ticket = true
  small : m.number u < 2 ^ 31
  choosing : pc.choosing = true → m.choosing u ≠ 0
  maxNum : 0 ≤ pc.maxNum

/-- Only clients in range are waited for. -/
def Rel (i : Nat) (pc : Pc) (j : Nat) (pc' : Pc) (m : Mem) : Prop :=
  i < numClients → j < numClients → Known i pc j pc' m

end

theorem toInt_of_small {x : Nat} (h : x < 2 ^ 31) : toInt x = x := if_pos h

theorem toUint32_of_small {x : Int} (h0 : 0 ≤ x) (h : x < 2 ^ 31) : (toUint32 x : Int) = x := by
  rw [toUint32]
  omega

/-! ## What a client does to the knowledge of others -/

/-- What client `j` does leaves alone what client `i` knows, if the ticket of `i`
stays, and `j` takes only tickets it may. -/
theorem Known.other {m' : Mem} {pc'' : Pc} (h : Known i pc j pc' m) (hi : m'.number i = m.number i)
    (hlater : Later i m pc' → Later i m' pc'')
    (hnumber : Later i m pc' → m'.number j = m.number j ∨ m'.number j = 0 ∨
      m.number i < m'.number j) : Known i pc j pc'' m' := by
  have hbefore : Before i j pc' m → Before i j pc'' m' := by
    intro hb
    constructor
    · intro hne
      rw [hi]
      rcases hnumber hb.2 with heq | h0 | hlt
      · rw [heq] at hne ⊢
        exact hb.1 hne
      · exact absurd h0 hne
      · exact .inl hlt
    · exact hlater hb.2
  have htame : Later i m pc' → Tame i j m → Tame i j m' := by
    intro hl ht
    rw [Tame, hi]
    rcases hnumber hl with heq | h0 | hlt
    · rw [heq]
      exact ht
    · exact .inl h0
    · exact .inr hlt.le
  cases pc with
  | idle => trivial
  | choose => trivial
  | scan k maxNum => trivial
  | store maxNum => trivial
  | chosen => trivial
  | waitChoosing k => exact fun hlt => hbefore (h hlt)
  | waitNumber k | lessOther k => exact ⟨fun hlt => hbefore (h.1 hlt), fun heq => hlater (h.2 heq)⟩
  | lessOwn k other =>
    refine ⟨fun hlt => hbefore (h.1 hlt), fun heq => ?_⟩
    obtain ⟨hl, ht⟩ := h.2 heq
    exact ⟨hlater hl, fun hle => htame hl (ht (hi ▸ hle))⟩
  | sameOther k =>
    refine ⟨fun hlt => hbefore (h.1 hlt), fun heq => ?_⟩
    obtain ⟨hl, ht⟩ := h.2 heq
    exact ⟨hlater hl, htame hl ht⟩
  | sameOwn k other =>
    refine ⟨fun hlt => hbefore (h.1 hlt), fun heq => ?_⟩
    obtain ⟨hl, hb⟩ := h.2 heq
    exact ⟨hlater hl, hb.imp (fun hsame => hi.symm ▸ hsame) hbefore⟩
  | critical => exact hbefore h
  | unlock => exact hbefore h

theorem known_waitFrom {numClients k : Nat} (hj : j < numClients) (hold : j < k → Before i j pc' m)
    (hnew : j = k → Before i j pc' m) : Known i (waitFrom numClients (k + 1)) j pc' m := by
  rw [waitFrom]
  split
  · intro hlt
    rcases Nat.lt_succ_iff_lt_or_eq.mp hlt with hlt | heq
    · exact hold hlt
    · exact hnew heq
  · next hge =>
    rcases Nat.lt_or_ge j k with hlt | hge'
    · exact hold hlt
    · exact hnew (by omega)

/-! ## The steps -/

section Steps

variable {numClients : Nat} {op : Op} {m' : Mem}

theorem own_call (h : call numClients u op pc m = some (pc', m')) (hown : Own numClients u pc m) :
    m' = m ∧ Own numClients u pc' m ∧ (∀ j pc'', Known u pc' j pc'' m ↔ Known u pc j pc'' m) ∧
      ∀ i, Later i m pc' := by
  unfold call at h
  split at h
  · next hu =>
    cases op <;> cases pc <;> simp at h <;> obtain ⟨rfl, rfl⟩ := h
    all_goals
      refine ⟨rfl, ⟨fun hge => absurd hu (by omega), hown.number, hown.small, nofun, Int.le_refl 0⟩,
        fun _ _ => .rfl, fun _ => trivial⟩
  · cases h

theorem run_frame (h : run numClients u pc m = some (pc', m')) (hw : i ≠ u) :
    m'.number i = m.number i ∧ m'.choosing i = m.choosing i := by
  cases pc <;> simp only [run, Option.some.injEq, Prod.mk.injEq, reduceCtorEq] at h
  all_goals
    obtain ⟨-, rfl⟩ := h
    simp [hw]

theorem own_scanFrom {k : Nat} {x : Int} (hu : u < numClients) (hnumber : m.number u = 0)
    (hchoosing : m.choosing u ≠ 0) (hx : 0 ≤ x) : Own numClients u (scanFrom numClients k x) m := by
  have hid : ∀ pc : Pc, numClients ≤ u → pc = .idle := fun _ hge => absurd hu (by omega)
  rw [scanFrom]
  split
  · exact ⟨hid _, by simp [hnumber, Pc.ticket], by omega, fun _ => hchoosing, hx⟩
  · exact ⟨hid _, by simp [hnumber, Pc.ticket], by omega, fun _ => hchoosing, hx⟩

theorem own_waitFrom {k : Nat} (hu : u < numClients) (hnumber : m.number u ≠ 0)
    (hsmall : m.number u < 2 ^ 31) : Own numClients u (waitFrom numClients k) m := by
  have hid : ∀ pc : Pc, numClients ≤ u → pc = .idle := fun _ hge => absurd hu (by omega)
  rw [waitFrom]
  split
  · exact ⟨hid _, by simp [hnumber, Pc.ticket], hsmall, nofun, Int.le_refl 0⟩
  · exact ⟨hid _, by simp [hnumber, Pc.ticket], hsmall, nofun, Int.le_refl 0⟩

theorem run_own (h : run numClients u pc m = some (pc', m')) (hown : Own numClients u pc m)
    (hsmall : pc.small = true) : Own numClients u pc' m' := by
  have hu : pc ≠ .idle → u < numClients := fun hne => Nat.not_le.mp fun hge => hne (hown.id hge)
  have hticket := hown.number
  -- a client with a ticket that goes on waiting
  have hwait : ∀ pc'' : Pc, pc ≠ .idle → pc''.ticket = pc.ticket → pc''.choosing = false →
      pc''.maxNum = 0 → Own numClients u pc'' m := by
    intro pc'' hne h1 h2 h3
    exact ⟨fun hge => absurd (hu hne) (by omega), by rw [h1]; exact hown.number, hown.small,
      fun h => absurd (h2.symm.trans h) nofun, by omega⟩
  cases pc <;> simp only [run, Option.some.injEq, Prod.mk.injEq, reduceCtorEq] at h
  case choose =>
    obtain ⟨rfl, rfl⟩ := h
    refine own_scanFrom (hu nofun) ?_ ?_ (Int.le_refl 0)
    · simpa [Pc.ticket] using hticket
    · simp
  case scan k maxNum =>
    obtain ⟨rfl, rfl⟩ := h
    have h0 : 0 ≤ maxNum := hown.maxNum
    refine own_scanFrom (hu nofun) (by simpa [Pc.ticket] using hticket) (hown.choosing rfl) ?_
    split <;> omega
  case store maxNum =>
    obtain ⟨rfl, rfl⟩ := h
    have h0 : 0 ≤ maxNum := hown.maxNum
    have hlt : maxNum + 1 < 2 ^ 31 := of_decide_eq_true hsmall
    have hnew : (toUint32 (maxNum + 1) : Int) = maxNum + 1 := toUint32_of_small (by omega) hlt
    refine ⟨fun hge => absurd (hu nofun) (by omega), ?_, ?_, fun _ => hown.choosing rfl, Int.le_refl 0⟩
    · simp only [update_self, Pc.ticket, iff_true]
      omega
    · simp only [update_self]
      omega
  case chosen =>
    obtain ⟨rfl, rfl⟩ := h
    exact own_waitFrom (hu nofun) (hown.number.mpr rfl) hown.small
  case waitChoosing k =>
    obtain ⟨rfl, rfl⟩ := h
    split <;> exact hwait _ nofun rfl rfl rfl
  case waitNumber k =>
    obtain ⟨rfl, rfl⟩ := h
    split
    · exact hwait _ nofun rfl rfl rfl
    · exact own_waitFrom (hu nofun) (hown.number.mpr rfl) hown.small
  case lessOther k =>
    obtain ⟨rfl, rfl⟩ := h
    exact hwait _ nofun rfl rfl rfl
  case lessOwn k other =>
    obtain ⟨rfl, rfl⟩ := h
    split <;> exact hwait _ nofun rfl rfl rfl
  case sameOther k =>
    obtain ⟨rfl, rfl⟩ := h
    exact hwait _ nofun rfl rfl rfl
  case sameOwn k other =>
    obtain ⟨rfl, rfl⟩ := h
    split
    · exact hwait _ nofun rfl rfl rfl
    · exact own_waitFrom (hu nofun) (hown.number.mpr rfl) hown.small
  case unlock =>
    obtain ⟨rfl, rfl⟩ := h
    exact ⟨fun hge => absurd (hu nofun) (by omega), by simp [Pc.ticket], by simp, nofun, Int.le_refl 0⟩

theorem later_scanFrom {k : Nat} {x : Int} (hi : i < numClients) (h : k ≤ i ∨ (m.number i : Int) ≤ x) :
    Later i m (scanFrom numClients k x) := by
  rw [scanFrom]
  split
  · exact h
  · next hge =>
    rcases h with hle | hle
    · omega
    · exact hle

theorem later_waitFrom {k : Nat} : Later i m (waitFrom numClients k) := by
  rw [waitFrom]
  split <;> trivial

theorem run_later (h : run numClients u pc m = some (pc', m')) (hown : Own numClients u pc m)
    (hsmall : pc.small = true) (hi : i < numClients) (hsmall' : m.number i < 2 ^ 31)
    (hlater : Later i m pc) :
    Later i m' pc' ∧ (m'.number u = m.number u ∨ m'.number u = 0 ∨ m.number i < m'.number u) := by
  cases pc <;> simp only [run, Option.some.injEq, Prod.mk.injEq, reduceCtorEq] at h
  case choose =>
    obtain ⟨rfl, rfl⟩ := h
    exact ⟨later_scanFrom hi (.inl (Nat.zero_le i)), .inl rfl⟩
  case scan k maxNum =>
    obtain ⟨rfl, rfl⟩ := h
    refine ⟨later_scanFrom hi ?_, .inl rfl⟩
    rcases hlater with hle | hle
    · rcases Nat.lt_or_eq_of_le hle with hlt | heq
      · exact .inl hlt
      · -- the ticket is read here
        subst heq
        refine .inr ?_
        rw [toInt_of_small hsmall']
        split <;> omega
    · refine .inr ?_
      split <;> omega
  case store maxNum =>
    obtain ⟨rfl, rfl⟩ := h
    have h0 : 0 ≤ maxNum := hown.maxNum
    have hlt : maxNum + 1 < 2 ^ 31 := of_decide_eq_true hsmall
    have hnew : (toUint32 (maxNum + 1) : Int) = maxNum + 1 := toUint32_of_small (by omega) hlt
    have hle : (m.number i : Int) ≤ maxNum := hlater
    refine ⟨trivial, .inr (.inr ?_)⟩
    simp only [update_self]
    omega
  case chosen =>
    obtain ⟨rfl, rfl⟩ := h
    exact ⟨later_waitFrom, .inl rfl⟩
  case unlock =>
    obtain ⟨rfl, rfl⟩ := h
    exact ⟨trivial, .inr (.inl (by simp))⟩
  all_goals
    obtain ⟨rfl, rfl⟩ := h
    refine ⟨?_, .inl rfl⟩
    first
      | trivial
      | split
        · trivial
        · first | trivial | exact later_waitFrom

theorem run_known (h : run numClients u pc m = some (pc', m')) (hj : j < numClients) (hju : j ≠ u)
    {pcj : Pc} (hownj : Own numClients j pcj m) (hknown : Known u pc j pcj m) :
    Known u pc' j pcj m' := by
  cases pc <;> simp only [run, Option.some.injEq, Prod.mk.injEq, reduceCtorEq] at h
  case choose =>
    obtain ⟨rfl, rfl⟩ := h
    rw [scanFrom]
    split <;> trivial
  case scan k maxNum =>
    obtain ⟨rfl, rfl⟩ := h
    rw [scanFrom]
    split <;> trivial
  case store maxNum =>
    obtain ⟨rfl, rfl⟩ := h
    trivial
  case chosen =>
    obtain ⟨rfl, rfl⟩ := h
    rw [waitFrom, if_pos (by omega)]
    exact fun hlt => absurd hlt (by omega)
  case waitChoosing k =>
    obtain ⟨rfl, rfl⟩ := h
    split
    · exact hknown
    · next hnot =>
      refine ⟨hknown, fun heq => ?_⟩
      -- a client that scans the tickets has said so
      subst heq
      have hflag : pcj.choosing = false := by
        by_contra hne
        exact hnot (hownj.choosing (by simpa using hne))
      cases pcj <;> trivial
  case waitNumber k =>
    obtain ⟨rfl, rfl⟩ := h
    split
    · exact hknown
    · next hzero =>
      refine known_waitFrom hj hknown.1 fun heq => ?_
      subst heq
      exact ⟨fun hne => absurd hne hzero, hknown.2 rfl⟩
  case lessOther k =>
    obtain ⟨rfl, rfl⟩ := h
    refine ⟨hknown.1, fun heq => ⟨hknown.2 heq, fun hle => ?_⟩⟩
    subst heq
    exact .inr hle
  case lessOwn k other =>
    obtain ⟨rfl, rfl⟩ := h
    split
    · exact ⟨hknown.1, fun heq => (hknown.2 heq).1⟩
    · next hge =>
      exact ⟨hknown.1, fun heq => ⟨(hknown.2 heq).1, (hknown.2 heq).2 (Nat.not_lt.mp hge)⟩⟩
  case sameOther k =>
    obtain ⟨rfl, rfl⟩ := h
    refine ⟨hknown.1, fun heq => ⟨(hknown.2 heq).1, ?_⟩⟩
    subst heq
    obtain ⟨hlater, htame⟩ := hknown.2 rfl
    by_cases hsame : m.number j = m.number u ∧ j < u
    · exact .inl hsame
    · refine .inr ⟨fun hne => ?_, hlater⟩
      rw [Tame] at htame
      omega
  case sameOwn k other =>
    obtain ⟨rfl, rfl⟩ := h
    split
    · exact ⟨hknown.1, fun heq => (hknown.2 heq).1⟩
    · next hnot =>
      refine known_waitFrom hj hknown.1 fun heq => ?_
      subst heq
      exact (hknown.2 rfl).2.resolve_left hnot
  case unlock =>
    obtain ⟨rfl, rfl⟩ := h
    trivial

theorem Later.of_eq (h : Later i m pc) (hi : m'.number i = m.number i) : Later i m' pc := by
  cases pc <;> simp only [Later, hi] at h ⊢ <;> exact h

theorem Own.of_eq {i : Nat} (h : Own numClients i pc m) (hnumber : m'.number i = m.number i)
    (hchoosing : m'.choosing i = m.choosing i) : Own numClients i pc m' :=
  ⟨h.id, by rw [hnumber]; exact h.number, by rw [hnumber]; exact h.small,
    by rw [hchoosing]; exact h.choosing, h.maxNum⟩

end Steps

/-! ## Runs -/

section Runs

variable {numClients : Nat} {s : Sys Mem Pc}

theorem paired_of_reach (h : (machine numClients).Reach smallTickets fresh s) :
    Machine.Paired (Own numClients) (Rel numClients) s := by
  refine h.paired ?_ ?_
  · intro s ⟨hmem, hidle⟩
    refine ⟨fun t => ?_, fun t w _ _ _ => ?_⟩
    · rw [hidle t, hmem]
      exact ⟨fun _ => rfl, by simp [Pc.ticket], by simp, nofun, Int.le_refl 0⟩
    · rw [hidle t]
      trivial
  · intro s a l m ⟨hown, hrel⟩ hsmall hact
    cases a with
    | call u op =>
      obtain ⟨rfl, hown', hknown, hlater⟩ := own_call hact (hown u)
      refine ⟨hown', fun w _ => hown w, fun w hw => ⟨?_, ?_⟩, fun w w' _ _ hne => hrel w w' hne⟩
      · exact fun hu hw' => (hknown ..).mpr (hrel u w (Ne.symm hw) hu hw')
      · exact fun hw' hu => (hrel w u hw hw' hu).other rfl (fun _ => hlater w) fun _ => .inl rfl
    | run u =>
      have hframe : ∀ w, w ≠ u → m.number w = s.mem.number w ∧ m.choosing w = s.mem.choosing w :=
        fun w hw => run_frame hact hw
      refine ⟨run_own hact (hown u) hsmall, ?_, fun w hw => ⟨?_, ?_⟩, ?_⟩
      · exact fun w hw => (hown w).of_eq (hframe w hw).1 (hframe w hw).2
      · exact fun hu hw' => run_known hact hw' hw (hown w) (hrel u w (Ne.symm hw) hu hw')
      · intro hw' hu
        have hlater := run_later hact (hown u) hsmall hw' (hown w).small
        exact (hrel w u hw hw' hu).other (hframe w hw).1 (fun h => (hlater h).1) fun h => (hlater h).2
      · intro w w' hw hw' hne hlt hlt'
        refine (hrel w w' hne hlt hlt').other (hframe w hw).1 ?_ fun _ => .inl (hframe w' hw').1
        exact fun h => h.of_eq (hframe w hw).1

theorem Known.before (h : Known i pc j pc' m) (hin : pc.inside = true) : Before i j pc' m := by
  cases pc <;> first | exact h | exact absurd hin nofun

theorem ticket_of_inside (h : pc.inside = true) : pc.ticket = true := by
  cases pc <;> first | rfl | exact absurd h nofun

/-- No two clients are past lock and before unlock. -/
theorem mutual_exclusion (h : (machine numClients).Reach smallTickets fresh s)
    (hi : (s.loc i).inside = true) (hj : (s.loc j).inside = true) : i = j := by
  obtain ⟨hown, hrel⟩ := paired_of_reach h
  by_contra hne
  have hid : ∀ u, (s.loc u).inside = true → u < numClients := by
    intro u hu
    by_contra hge
    rw [(hown u).id (Nat.not_lt.mp hge)] at hu
    cases hu
  have hij := ((hrel i j hne (hid i hi) (hid j hj)).before hi).1
    ((hown j).number.mpr (ticket_of_inside hj))
  have hji := ((hrel j i (Ne.symm hne) (hid j hj) (hid i hi)).before hj).1
    ((hown i).number.mpr (ticket_of_inside hi))
  omega

/-- Two clients take the same ticket, and the one with the smaller id is let in. -/
def sameTicket : List (Act Op) :=
  [Act.call 0 Op.shmLockCrossMachine, Act.call 1 Op.shmLockCrossMachineBypassCache] ++
    List.replicate 3 (Act.run 0) ++ List.replicate 11 (Act.run 1) ++
    List.replicate 14 (Act.run 0) ++ List.replicate 6 (Act.run 1)

def unlocked : Sys Mem Pc := ⟨⟨fun _ => 0, fun _ => 0⟩, fun _ => .idle⟩

theorem sameTicket_run : ((machine 2).runUnder smallTickets sameTicket unlocked).any fun s =>
    s.mem.number 0 = 1 ∧ s.mem.number 1 = 1 ∧ s.loc 0 = .critical ∧ s.loc 1 = .waitNumber 0 := by
  decide +kernel

theorem mutual_exclusion_sameTicket : ∃ s : Sys Mem Pc,
    (machine 2).Reach smallTickets fresh s ∧ s.mem.number 0 = s.mem.number 1 ∧
      (s.loc 0).inside = true ∧ ∀ j, (s.loc j).inside = true → 0 = j := by
  obtain ⟨s, _, hreach, h0, h1, hin, -⟩ :=
    Machine.reach_of_any fresh ⟨rfl, fun _ => rfl⟩ sameTicket_run
  have hinside : (s.loc 0).inside = true := by rw [hin]; rfl
  exact ⟨s, hreach, h0.trans h1.symm, hinside, fun j hj => mutual_exclusion hreach hinside hj⟩

end Runs

end ShmPcc.SoftLock
