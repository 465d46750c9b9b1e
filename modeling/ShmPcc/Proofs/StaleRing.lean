import ShmPcc.Ref.StaleRing

/-!
# The broadcast buffer keeps what is pushed

The minimum that `recycle_stale` takes starts at 0, so it is 0, and `tail`, which is 0 at
first, is set to 0 for ever: no slot is cleared and none is used a second time. Under that
regime the ring is a list. The slot claimed as the `j`-th is slot `j` (`Ring.slots`), a
slot that is not 0 has the address it was claimed for (`Ring.filled`), `head` counts the
claims and stays below the size because a push that would bring it around finds the buffer
full. So no index wraps, and `process_` of a machine counts what it has processed.
-/

namespace ShmPcc.StaleRing

open Function

variable {size machines : Nat} {m m' : Mem} {h h' : History} {l l' : Local} {t u : Nat}

theorem nextIndex_eq_mod {e : Nat} (i : Nat) : nextIndex (2 ^ e) i = (i + 1) % 2 ^ e :=
  Nat.and_two_pow_sub_one_eq_mod _ _

/-- The shared state, with what has happened. -/
structure Ring (size : Nat) (x : Mem × History) : Prop where
  tail : x.1.tail = 0
  head : x.1.head = x.2.claims.length
  room : x.1.head < size
  slots : ∀ {j i a : Nat}, x.2.claims[j]? = some (i, a) → i = j
  filled : ∀ {i}, x.1.buffer i ≠ 0 → x.2.claims[i]? = some (i, x.1.buffer i)

/-- What a thread knows where it stands. -/
def Pc.Knows (size t process : Nat) (x : Mem × History) : Pc → Prop
  | .claim _ head => nextIndex size head ≠ 0
  | .fill addr head => x.2.claims[head]? = some (head, addr)
  | .take => x.1.buffer process ≠ 0
  | .publish addr => x.2.claims[(x.2.results t).length]? = some ((x.2.results t).length, addr)
  | .scan _ _ minProcess | .begin minProcess | .advance minProcess => minProcess = 0
  | .clear .. => False
  | _ => True

/-- How many addresses the thread has taken from the buffer: one more than it has
returned, before it returns. -/
def Pc.taken (n : Nat) : Pc → Nat
  | .publish _ => n + 1
  | _ => n

structure Own (size t : Nat) (l : Local) (x : Mem × History) : Prop where
  knows : l.pc.Knows size t l.process x
  process : l.process = l.pc.taken (x.2.results t).length
  results : x.2.results t <+: x.2.claims.map Prod.snd

/-- What a step of another thread may do. -/
structure Grows (u : Nat) (x y : Mem × History) : Prop where
  claims : x.2.claims <+: y.2.claims
  results : y.2.results u = x.2.results u
  buffer : ∀ i, x.1.buffer i ≠ 0 → y.1.buffer i ≠ 0

theorem Own.grows {x y : Mem × History} (hown : Own size u l x) (hg : Grows u x y) : Own size u l y := by
  obtain ⟨pc, process⟩ := l
  obtain ⟨hknows, hprocess, hresults⟩ := hown
  have hclaims : ∀ {j : Nat} {c}, x.2.claims[j]? = some c → y.2.claims[j]? = some c := by
    intro j c hc
    obtain ⟨rest, hrest⟩ := hg.claims
    rw [← hrest, List.getElem?_append_left (List.getElem?_eq_some_iff.mp hc).1]
    exact hc
  refine ⟨?_, by rw [hg.results]; exact hprocess, ?_⟩
  · cases pc with
    | fill addr head => exact hclaims hknows
    | take => exact hg.buffer _ hknows
    | publish addr =>
      simp only [Pc.Knows, hg.results] at hknows ⊢
      exact hclaims hknows
    | _ => exact hknows
  · rw [hg.results]
    exact hresults.trans (hg.claims.map _)

/-! ## The steps -/

theorem Grows.refl (x : Mem × History) : Grows u x x := ⟨List.prefix_refl _, rfl, fun _ => id⟩

theorem nextIndex_of_lt {e i n : Nat} (hi : i < n) (hn : n < 2 ^ e) : nextIndex (2 ^ e) i = i + 1 := by
  rw [nextIndex_eq_mod, Nat.mod_eq_of_lt (by omega)]

section Steps

variable {e : Nat}

theorem knows_scanFrom {x : Mem × History} {w i process : Nat} :
    (scanFrom w i 0).Knows size t process x := by
  rw [scanFrom]
  split <;> rfl

theorem taken_scanFrom {w i minProcess n : Nat} : (scanFrom w i minProcess).taken n = n := by
  rw [scanFrom]
  split <;> rfl

/-- A successful claim: the head moves on, and the slot at the old head is the next one
in the order of the claims. -/
theorem claim_own {addr head process : Nat} (hring : Ring (2 ^ e) (m, h))
    (hown : Own (2 ^ e) t ⟨.claim addr head, process⟩ (m, h)) (hhead : m.head = head) :
    Ring (2 ^ e) ({ m with head := nextIndex (2 ^ e) head },
        { h with claims := h.claims ++ [(head, addr)] }) ∧
      Own (2 ^ e) t ⟨.fill addr head, process⟩ ({ m with head := nextIndex (2 ^ e) head },
        { h with claims := h.claims ++ [(head, addr)] }) := by
  obtain ⟨htail, hcount, hroom, hslots, hfilled⟩ := hring
  obtain ⟨hknows, hprocess, hresults⟩ := hown
  dsimp only at htail hcount hroom hslots hfilled hknows hprocess hresults
  have hlt : head + 1 < 2 ^ e := by
    rw [Pc.Knows, nextIndex_eq_mod] at hknows
    have hne : head + 1 ≠ 2 ^ e := by
      intro heq
      rw [heq, Nat.mod_self] at hknows
      exact hknows rfl
    omega
  have hnext : nextIndex (2 ^ e) head = head + 1 := nextIndex_of_lt (Nat.lt_succ_self _) hlt
  have hlength : h.claims.length = head := hcount.symm.trans hhead
  constructor
  · refine ⟨htail, ?_, ?_, ?_, ?_⟩
    · simp [hnext, hlength]
    · simpa [hnext] using hlt
    · intro j i a hc
      rcases getElem?_append_one hc with hc | ⟨rfl, hnew⟩
      · exact hslots hc
      · rw [hlength]
        exact congrArg Prod.fst hnew.symm
    · intro i hi
      have hc := hfilled hi
      rw [List.getElem?_append_left (List.getElem?_eq_some_iff.mp hc).1]
      exact hc
  · refine ⟨?_, hprocess, ?_⟩
    · simp [Pc.Knows, ← hlength]
    · exact hresults.trans ((List.prefix_append ..).map _)

theorem run_own (hrun : run (2 ^ e) t l m = some (l', m')) (hring : Ring (2 ^ e) (m, h))
    (hown : Own (2 ^ e) t l (m, h)) : Ring (2 ^ e) (m', log t l m l' h) ∧
      Own (2 ^ e) t l' (m', log t l m l' h) ∧ ∀ u, u ≠ t → Grows u (m, h) (m', log t l m l' h) := by
  obtain ⟨pc, process⟩ := l
  have ⟨hknows, hprocess, hresults⟩ := hown
  -- a step that changes nothing shared, to a place where the thread knows what it should
  have hlocal : ∀ pc', pc'.Knows (2 ^ e) t process (m, h) → pc'.taken (h.results t).length = process →
      Ring (2 ^ e) (m, h) ∧ Own (2 ^ e) t ⟨pc', process⟩ (m, h) ∧ ∀ u, u ≠ t → Grows u (m, h) (m, h) :=
    fun pc' hknows' htaken => ⟨hring, ⟨hknows', htaken.symm, hresults⟩, fun _ _ => .refl _⟩
  cases pc <;> simp only [run, reduceCtorEq] at hrun
  case loadHead addr =>
    cases hrun
    exact hlocal _ trivial hprocess.symm
  case loadTail addr head =>
    split at hrun <;> cases hrun
    · exact hlocal _ trivial hprocess.symm
    · next hfull =>
      rw [hring.tail] at hfull
      exact hlocal _ hfull hprocess.symm
  case claim addr head =>
    split at hrun
    · next hhead =>
      cases hrun
      obtain ⟨hring', hown'⟩ := claim_own hring hown hhead
      exact ⟨hring', hown', fun u _ => ⟨List.prefix_append .., rfl, fun _ => id⟩⟩
    · cases hrun
      exact hlocal _ trivial hprocess.symm
  case fill addr head =>
    cases hrun
    -- a slot that is filled already was filled with the same address
    have hsame : ∀ i, m.buffer i ≠ 0 → update m.buffer head addr i = m.buffer i := by
      intro i hi
      by_cases heq : i = head
      · subst heq
        have hc := hring.filled hi
        rw [show h.claims[i]? = some (i, addr) from hknows] at hc
        cases hc
        exact update_self ..
      · exact update_of_ne heq ..
    refine ⟨⟨hring.tail, hring.head, hring.room, hring.slots, ?_⟩, ⟨trivial, hprocess, hresults⟩, ?_⟩
    · intro i hi
      dsimp only at hi ⊢
      by_cases heq : i = head
      · subst heq
        rw [update_self]
        exact hknows
      · rw [update_of_ne heq] at hi ⊢
        exact hring.filled hi
    · refine fun u _ => ⟨List.prefix_refl _, rfl, fun i hi => ?_⟩
      dsimp only
      rw [hsame i hi]
      exact hi
  case compareHead =>
    cases hrun
    refine hlocal _ ?_ ?_ <;> split <;> first | trivial | exact hprocess.symm
  case wait =>
    cases hrun
    split
    · exact hlocal _ trivial hprocess.symm
    · next hfull => exact hlocal _ hfull hprocess.symm
  case take =>
    cases hrun
    -- the slot is claimed, so the index after it is not past the head
    have hprocess : process = (h.results t).length := hprocess
    have hc := hring.filled hknows
    have hlt : process < m.head := by
      rw [hring.head]
      exact (List.getElem?_eq_some_iff.mp hc).1
    refine ⟨hring, ⟨?_, ?_, hresults⟩, fun _ _ => .refl _⟩
    · rw [hprocess] at hc ⊢
      exact hc
    · rw [nextIndex_of_lt hlt hring.room, hprocess]
      rfl
  case publish addr =>
    cases hrun
    refine ⟨⟨hring.tail, hring.head, hring.room, hring.slots, hring.filled⟩, ⟨trivial, ?_, ?_⟩, ?_⟩
    · simpa [log, Pc.taken] using hprocess
    · simp only [log, update_self]
      refine prefix_concat_of_getElem? hresults ?_
      rw [List.getElem?_map]
      exact congrArg (Option.map Prod.snd) hknows
    · exact fun u hu => ⟨List.prefix_refl _, update_of_ne hu .., fun _ => id⟩
  case scan workerMachineId i minProcess =>
    cases hrun
    have hmin : min minProcess (m.gProcess i) = 0 := by
      rw [show minProcess = 0 from hknows]
      exact Nat.zero_min _
    rw [hmin]
    exact hlocal _ knows_scanFrom (taken_scanFrom.trans hprocess.symm)
  case begin minProcess =>
    cases hrun
    have hstart : clearFrom (asInt m.tail) minProcess = .advance 0 := by
      rw [show m.tail = 0 from hring.tail, show minProcess = 0 from hknows]
      rfl
    rw [hstart]
    exact hlocal _ rfl hprocess.symm
  case clear i minProcess => exact hknows.elim
  case advance minProcess =>
    cases hrun
    refine ⟨⟨hknows, hring.head, hring.room, hring.slots, hring.filled⟩,
      ⟨trivial, hprocess, hresults⟩, fun u _ => ⟨List.prefix_refl _, rfl, fun _ => id⟩⟩

theorem call_own {op : Op} (hcall : call machines t op l m = some (l', m'))
    (hring : Ring (2 ^ e) (m, h)) (hown : Own (2 ^ e) t l (m, h)) :
    Ring (2 ^ e) (m', log t l m l' h) ∧ Own (2 ^ e) t l' (m', log t l m l' h) ∧
      ∀ u, u ≠ t → Grows u (m, h) (m', log t l m l' h) := by
  obtain ⟨pc, process⟩ := l
  obtain ⟨-, hprocess, hresults⟩ := hown
  cases pc <;> cases op <;> simp only [call, reduceCtorEq] at hcall
  case idle.push addr =>
    cases hcall
    exact ⟨hring, ⟨trivial, hprocess, hresults⟩, fun _ _ => .refl _⟩
  case idle.process =>
    split at hcall <;> cases hcall
    exact ⟨hring, ⟨trivial, hprocess, hresults⟩, fun _ _ => .refl _⟩
  case idle.recycleStale workerMachineId =>
    cases hcall
    refine ⟨hring, ⟨knows_scanFrom, ?_, hresults⟩, fun _ _ => .refl _⟩
    rw [taken_scanFrom]
    exact hprocess

end Steps

/-! ## Runs -/

section Runs

variable {e : Nat} {s : Sys (Mem × History) Local}

theorem holds_of_reach (hreach : ((machine (2 ^ e) machines).record log).Reach Machine.free fresh s) :
    Machine.Holds (Ring (2 ^ e)) (Own (2 ^ e)) s := by
  refine hreach.invariant ?_ ?_
  · intro s ⟨hmem, hidle⟩
    refine ⟨?_, fun t => ?_⟩
    · rw [hmem]
      exact ⟨rfl, rfl, Nat.two_pow_pos e, nofun, fun hne => absurd rfl hne⟩
    · rw [hidle t, hmem]
      exact ⟨trivial, rfl, List.prefix_refl _⟩
  · intro s a l ⟨m, h⟩ ⟨hring, hown⟩ _ hact
    obtain ⟨hact, hlog⟩ := Machine.act_record hact
    have hstep : Ring (2 ^ e) (m, h) ∧ Own (2 ^ e) a.thread l (m, h) ∧
        ∀ u, u ≠ a.thread → Grows u s.mem (m, h) := by
      rw [show h = _ from hlog]
      cases a with
      | call t op => exact call_own hact hring (hown t)
      | run t => exact run_own hact hring (hown t)
    exact ⟨hstep.1, hstep.2.1, fun u hu => (hown u).grows (hstep.2.2 u hu)⟩

/-- A slot is cleared, and the tail moves past it, only when every machine has processed
what was in it; no push fills a slot that a machine has still to process; and each machine
processes the pushed addresses in the order of their slots, each once. -/
theorem stale_lines_kept
    (hreach : ((machine (2 ^ e) machines).record log).Reach Machine.free fresh s) :
    (∀ t i minProcess, (s.loc t).pc = .clear i minProcess → s.mem.2.Consumed machines i) ∧
    (∀ t minProcess i, (s.loc t).pc = .advance minProcess →
      Between (2 ^ e) s.mem.1.tail minProcess i → s.mem.2.Consumed machines i) ∧
    (∀ t addr i, (s.loc t).pc = .fill addr i → ∃ p : Nat, s.mem.2.claims[p]? = some (i, addr) ∧
      ∀ j a : Nat, j ≠ p → s.mem.2.claims[j]? = some (i, a) → s.mem.2.Processed machines j) ∧
    ∀ k < machines, s.mem.2.results k <+: s.mem.2.claims.map Prod.snd := by
  obtain ⟨hring, hown⟩ := holds_of_reach hreach
  refine ⟨?_, ?_, ?_, fun k _ => (hown k).results⟩
  · intro t i minProcess hpc
    have hknows := (hown t).knows
    rw [hpc] at hknows
    exact hknows.elim
  · intro t minProcess i hpc hbetween
    have hknows := (hown t).knows
    rw [hpc] at hknows
    -- the tail stays where it is, so it passes no slot
    rw [hring.tail, show minProcess = 0 from hknows] at hbetween
    have := hbetween.2
    simp at this
  · intro t addr i hpc
    have hknows := (hown t).knows
    rw [hpc] at hknows
    refine ⟨i, hknows, fun j a hne hj => ?_⟩
    exact absurd (hring.slots hj).symm hne

def zeroed : Sys (Mem × History) Local :=
  ⟨(⟨0, 0, fun _ => 0, fun _ => 0⟩, ⟨[], fun _ => []⟩), fun _ => ⟨.idle, 0⟩⟩

/-- Machine 0 waits for a slot that is claimed and not filled while the next one is filled,
then machine 1 recycles, and both go on processing. -/
def lateFill : List (Act Op) :=
  [.call 5 (.push 7), .run 5, .run 5, .run 5, .call 6 (.push 9), .run 6, .run 6, .run 6, .run 6,
    .call 0 .process, .run 0, .run 0, .run 5, .run 0, .run 0, .run 0, .call 8 (.recycleStale 1),
    .run 8, .run 8, .run 8, .call 1 .process, .run 1, .run 1, .run 1, .run 1, .call 0 .process,
    .run 0, .run 0, .run 0, .run 0]

theorem lateFill_run : (((machine 4 2).record log).runUnder Machine.free lateFill zeroed).any fun s =>
    s.mem.2.claims = [(0, 7), (1, 9)] ∧ s.mem.2.results 0 = [7, 9] ∧ s.mem.2.results 1 = [7] := by
  decide +kernel

theorem stale_lines_kept_lateFill : ∃ s : Sys (Mem × History) Local,
    ((machine 4 2).record log).Reach Machine.free fresh s ∧ s.mem.2.results 0 = [7, 9] ∧
      s.mem.2.results 1 = [7] ∧ ∀ k < 2, s.mem.2.results k <+: s.mem.2.claims.map Prod.snd := by
  obtain ⟨s, _, hreach, -, h0, h1⟩ := Machine.reach_of_any fresh ⟨rfl, fun _ => rfl⟩ lateFill_run
  exact ⟨s, hreach, h0, h1, (stale_lines_kept (e := 2) hreach).2.2.2⟩

end Runs

/-- `recycle_stale` gives no slot back: a buffer takes fewer addresses in its life than it has
slots, and any two machines process them in one order. -/
theorem pushes_below_size
    (hreach : ((machine (2 ^ e) machines).record log).Reach Machine.free fresh s) :
    s.mem.1.tail = 0 ∧ s.mem.2.claims.length < 2 ^ e ∧
      ∀ j k, s.mem.2.results j <+: s.mem.2.results k ∨ s.mem.2.results k <+: s.mem.2.results j := by
  obtain ⟨hring, hown⟩ := holds_of_reach hreach
  refine ⟨hring.tail, hring.head ▸ hring.room, fun j k => ?_⟩
  exact List.prefix_or_prefix_of_prefix (hown j).results (hown k).results

theorem pushes_below_size_lateFill : ∃ s : Sys (Mem × History) Local,
    s.mem.2.results 0 = [7, 9] ∧ s.mem.2.claims.length < 4 := by
  obtain ⟨s, _, hreach, -, h0, -⟩ := Machine.reach_of_any fresh ⟨rfl, fun _ => rfl⟩ lateFill_run
  exact ⟨s, h0, (pushes_below_size (e := 2) hreach).2.1⟩

end ShmPcc.StaleRing
