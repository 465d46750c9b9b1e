import ShmPcc.Lib.Epoch
import ShmPcc.Ref.BwTreeGc

/-!
# When the distributed minimum is safe

A round of `IncreaseEpoch` collects the minimum of the `last_active_epoch`s one
thread at a time. A thread whose epoch was read before it joined an operation is
not in the minimum, but what is added from then on has the epoch of the round.
So what a round knows while it collects is that `min minEpoch epoch` is a bound
for the threads it has read: `Epochs.Bound`. If the minimum it hands out is no
later than the epoch, the minimum itself is a bound, and it stays one however
long a thread goes on using it.

Two things break this. The round overwrites the `last_active_epoch` of threads
inside operations, so the next round does not see their epochs any more; and a
round that reads the initial value of every thread hands out that value, which
is later than any epoch. `calm` rules out these two, a `JoinEpoch` inside an
operation, and an epoch that runs over.
-/

namespace ShmPcc.BwTreeGc

open Function

variable {threadNum : Nat}

/-- The restriction. -/
def calm (threadNum : Nat) (s : Sys Mem Pc) : Act Op → Prop
  | .call u .joinEpoch => s.mem.inside u = none
  | .call _ _ => True
  | .run u =>
    match s.loc u with
    | .tickStore epoch => epoch < uint64Max
    | .tickWrite i _ _ => s.mem.inside i = none
    | .tickSpread i minEpoch => i < threadNum → minEpoch ≤ s.mem.epoch
    | _ => True

instance (s : Sys Mem Pc) (a : Act Op) : Decidable (calm threadNum s a) := by
  unfold calm
  split
  · infer_instance
  · infer_instance
  · split <;> infer_instance

/-! ## The invariant -/

/-- The collector as a scheme of epochs. -/
def Mem.epochs (m : Mem) : Epochs Nat Nat where
  now := m.epoch
  published := m.lastActiveEpoch
  inside := m.inside
  retired := m.deleteEpochs

structure Inv (threadNum : Nat) (m : Mem) : Prop where
  inside_lt : ∀ j k, m.inside j = some k → j < threadNum
  stamped : ∀ t, ∀ n ∈ m.garbage t, m.deleteEpochs[n.serial]? = some n.deleteEpoch
  guarded : m.epochs.Guarded
  /-- Every minimum that was handed out is a bound. -/
  bounds : ∀ t, m.epochs.Bound (fun _ => True) (m.minimunEpoch t)
  /-- No free hit an operation that was open when the node was added. -/
  harmless : ∀ x ∈ m.freed, ∀ j k, x.inside j = some k → x.node.serial < k

/-- What thread `u` knows where it stands. -/
def Pc.At (threadNum u : Nat) : Pc → Mem → Prop
  | .joinLoad, m => u < threadNum ∧ m.inside u = none
  | .joinStore epoch, m => u < threadNum ∧ epoch ≤ m.epoch
  | .leaveLoad, m | .leaveStore _, m => m.inside u = none
  | .addLink node, m => m.deleteEpochs[node.serial]? = some node.deleteEpoch
  | .gcFree minEpoch, m => m.epochs.Bound (fun _ => True) minEpoch
  | .tickLoad, _ => u = threadNum
  | .tickStore epoch, m => u = threadNum ∧ epoch = m.epoch
  | .tickRead i minEpoch, m => u = threadNum ∧ m.epochs.Bound (· < i) (min minEpoch m.epoch)
  | .tickReload i minEpoch, m | .tickWrite i minEpoch _, m =>
    u = threadNum ∧ m.epochs.Bound (· < i + 1) (min minEpoch m.epoch)
  | .tickSpread _ minEpoch, m =>
    u = threadNum ∧ m.epochs.Bound (· < threadNum) (min minEpoch m.epoch)
  | _, _ => True

/-! ## What one access does -/

/-- The changes thread `u` makes, with what it knows then. -/
inductive Move (threadNum u : Nat) (m : Mem) : Mem → Prop where
  | quiet : Move threadNum u m m
  | setLastActive {t e : Nat} (h : m.inside t = none) :
      Move threadNum u m { m with lastActiveEpoch := update m.lastActiveEpoch t e }
  | join {e : Nat} (hu : u < threadNum) (he : e ≤ m.epoch) : Move threadNum u m { m with
        lastActiveEpoch := update m.lastActiveEpoch u e
        inside := update m.inside u (some m.deleteEpochs.length) }
  | leave : Move threadNum u m { m with inside := update m.inside u none }
  | stamp : Move threadNum u m { m with deleteEpochs := m.deleteEpochs ++ [m.epoch] }
  | link {ns : List GarbageNode} (hn : ∀ n ∈ ns, m.deleteEpochs[n.serial]? = some n.deleteEpoch) :
      Move threadNum u m { m with garbage := update m.garbage u ns }
  | free {n : GarbageNode} {ns : List GarbageNode}
      (hn : ∀ n ∈ ns, m.deleteEpochs[n.serial]? = some n.deleteEpoch)
      (hsafe : ∀ j k, m.inside j = some k → n.serial < k) :
      Move threadNum u m { m with
        garbage := update m.garbage u ns
        freed := m.freed ++ [⟨n, m.inside⟩] }
  | advance {e : Nat} (hu : u = threadNum) (he : m.epoch ≤ e) :
      Move threadNum u m { m with epoch := e }
  | spread {t e : Nat} (he : m.epochs.Bound (fun _ => True) e) :
      Move threadNum u m { m with minimunEpoch := update m.minimunEpoch t e }

variable {m m' : Mem} {u w : Nat}

theorem Move.epochs (h : Move threadNum u m m') : m.epochs.Step m'.epochs := by
  cases h with
  | setLastActive hnone => exact .publish hnone
  | join hu he => exact .enter he
  | leave => exact .leave
  | stamp => exact .retire
  | advance hu he => exact .advance he
  | _ => exact .stay

theorem garbage_update {f : Nat → List GarbageNode} {t i : Nat} {ns : List GarbageNode}
    {P : GarbageNode → Prop} (hns : ∀ n ∈ ns, P n) (hf : ∀ n ∈ f i, P n) :
    ∀ n ∈ update f t ns i, P n := by
  rw [update_apply]
  split
  · exact hns
  · exact hf

theorem Move.inv (hi : Inv threadNum m) (h : Move threadNum u m m') : Inv threadNum m' := by
  have hg := h.epochs.guarded hi.guarded
  have hb := fun t => (hi.bounds t).step h.epochs
  cases h with
  | quiet => exact hi
  | setLastActive hnone | advance hu he => exact { hi with guarded := hg, bounds := hb }
  | join hu he =>
    refine { hi with inside_lt := fun j k hj => ?_, guarded := hg, bounds := hb }
    rcases Epochs.inside_update (s := m.epochs) hj with ⟨rfl, _⟩ | ⟨_, hj⟩
    · exact hu
    · exact hi.inside_lt j k hj
  | leave =>
    refine { hi with inside_lt := fun j k hj => ?_, guarded := hg, bounds := hb }
    rcases Epochs.inside_update (s := m.epochs) hj with ⟨_, hk⟩ | ⟨_, hj⟩
    · cases hk
    · exact hi.inside_lt j k hj
  | stamp =>
    refine { hi with stamped := fun t n hn => ?_, guarded := hg, bounds := hb }
    exact Outline.getElem?_snoc (hi.stamped t n hn)
  | link hn => exact { hi with stamped := fun t => garbage_update hn (hi.stamped t) }
  | free hn hsafe =>
    refine { hi with
      stamped := fun t => garbage_update hn (hi.stamped t)
      harmless := fun x hx => ?_ }
    rcases List.mem_append.mp hx with hx | hx
    · exact hi.harmless x hx
    · rw [List.mem_singleton.mp hx]
      exact hsafe
  | @spread t e he =>
    refine { hi with bounds := fun i => ?_ }
    dsimp only
    rw [update_apply]
    split
    · exact he
    · exact hi.bounds i

/-! ## What a thread knows survives the others -/

theorem Move.inside_none (hw : w ≠ u) (h : Move threadNum u m m') (hn : m.inside w = none) :
    m'.inside w = none := by
  cases h with
  | join hu he | leave => exact (update_of_ne hw ..).trans hn
  | _ => exact hn

theorem Move.epoch_eq (hw : w = threadNum) (hne : w ≠ u) (h : Move threadNum u m m') :
    m'.epoch = m.epoch := by
  cases h with
  | advance hu he => exact absurd (hw.trans hu.symm) hne
  | _ => rfl

theorem Pc.At.move {pc : Pc} (hw : w ≠ u) (hat : pc.At threadNum w m)
    (h : Move threadNum u m m') : pc.At threadNum w m' := by
  cases pc with
  | joinLoad => exact ⟨hat.1, h.inside_none hw hat.2⟩
  | joinStore e => exact ⟨hat.1, le_trans hat.2 h.epochs.now_le⟩
  | leaveLoad | leaveStore e => exact h.inside_none hw hat
  | addLink node => exact h.epochs.retired hat
  | gcFree e => exact Epochs.Bound.step hat h.epochs
  | tickLoad => exact hat
  | tickStore e => exact ⟨hat.1, hat.2.trans (h.epoch_eq hat.1 hw).symm⟩
  | tickRead i e | tickReload i e | tickWrite i e e' | tickSpread i e =>
    refine ⟨hat.1, ?_⟩
    rw [h.epoch_eq hat.1 hw]
    exact hat.2.step h.epochs
  | _ => trivial

/-! ## Every access is one of these moves -/

theorem call_move {op : Op} {pc pc' : Pc} (hcalm : op = .joinEpoch → m.inside u = none)
    (hc : call threadNum u op pc m = some (pc', m')) :
    Move threadNum u m m' ∧ pc'.At threadNum u m' := by
  cases pc with
  | idle =>
    cases op with
    | joinEpoch =>
      simp only [call] at hc
      split at hc
      · next hu =>
        cases hc
        exact ⟨.quiet, hu, hcalm rfl⟩
      · cases hc
    | leaveEpoch =>
      simp only [call] at hc
      split at hc
      · cases hc
        exact ⟨.leave, update_self ..⟩
      · cases hc
    | addGarbageNode nodeP | performGC =>
      simp only [call] at hc
      split at hc
      · cases hc
        exact ⟨.quiet, trivial⟩
      · cases hc
    | increaseEpoch =>
      simp only [call] at hc
      split at hc
      · next hu =>
        cases hc
        exact ⟨.quiet, hu⟩
      · cases hc
  | _ => cases hc

theorem run_move {pc pc' : Pc} (hi : Inv threadNum m) (hat : pc.At threadNum u m)
    (hstore : ∀ e, pc = .tickStore e → e < uint64Max)
    (hwrite : ∀ i mn e, pc = .tickWrite i mn e → m.inside i = none)
    (hspread : ∀ i mn, pc = .tickSpread i mn → i < threadNum → mn ≤ m.epoch)
    (hr : run threadNum u pc m = some (pc', m')) :
    Move threadNum u m m' ∧ pc'.At threadNum u m' := by
  cases pc with
  | idle => cases hr
  | joinLoad =>
    cases hr
    exact ⟨.quiet, hat.1, le_rfl⟩
  | joinStore e =>
    cases hr
    exact ⟨.join hat.1 hat.2, trivial⟩
  | leaveLoad | tickReload i mn =>
    cases hr
    exact ⟨.quiet, hat⟩
  | leaveStore e =>
    cases hr
    exact ⟨.setLastActive hat, trivial⟩
  | addLoad nodeP =>
    cases hr
    exact ⟨.stamp, List.getElem?_concat_length⟩
  | addLink node =>
    cases hr
    refine ⟨.link fun n hn => ?_, ?_⟩
    · rcases List.mem_append.mp hn with hn | hn
      · exact hi.stamped u n hn
      · rw [List.mem_singleton.mp hn]
        exact hat
    · split <;> trivial
  | gcLoad =>
    cases hr
    exact ⟨.quiet, hi.bounds u⟩
  | gcFree e =>
    simp only [run] at hr
    split at hr
    · cases hr
      exact ⟨.quiet, trivial⟩
    · next n rest hlist =>
      split at hr
      · next hlt =>
        cases hr
        have hmem : ∀ x ∈ n :: rest, m.deleteEpochs[x.serial]? = some x.deleteEpoch :=
          fun x hx => hi.stamped u x (hlist ▸ hx)
        refine ⟨.free (fun x hx => hmem x (.tail _ hx)) ?_, hat⟩
        exact (hat.2 n.serial).safe (hmem n (.head _)) hlt
      · cases hr
        exact ⟨.quiet, trivial⟩
  | tickLoad =>
    cases hr
    exact ⟨.quiet, hat, rfl⟩
  | tickStore e =>
    cases hr
    obtain ⟨hu, rfl⟩ := hat
    have hlt := hstore _ rfl
    have heq : (m.epoch + 1) % 2 ^ 64 = m.epoch + 1 := by
      simp only [uint64Max] at hlt
      exact Nat.mod_eq_of_lt (by omega)
    rw [heq]
    refine ⟨.advance hu (Nat.le_succ _), hu, min_le_right .., fun i => .none fun j => ?_⟩
    exact Nat.not_lt_zero j
  | tickRead i mn =>
    obtain ⟨hu, hb⟩ := hat
    simp only [run] at hr
    split at hr
    · cases hr
      refine ⟨.quiet, hu, ?_⟩
      have hread := hb.read hi.guarded fun j hj =>
        Nat.lt_succ_iff_lt_or_eq.mp hj
      have heq : min (min (m.lastActiveEpoch i) mn) m.epoch =
          min (min mn m.epoch) (m.epochs.published i) := by
        show _ = min (min mn m.epoch) (m.lastActiveEpoch i)
        omega
      rw [heq]
      exact hread
    · next hge =>
      cases hr
      refine ⟨.quiet, hu, hb.mono fun j k _ hj => ?_⟩
      exact Nat.lt_of_lt_of_le hj (Nat.le_of_not_lt hge)
  | tickWrite i mn e =>
    cases hr
    have hmove : Move threadNum u m { m with lastActiveEpoch := update m.lastActiveEpoch i e } :=
      .setLastActive (hwrite i mn e rfl)
    exact ⟨hmove, hat.1, hat.2.step hmove.epochs⟩
  | tickSpread i mn =>
    obtain ⟨hu, hb⟩ := hat
    simp only [run] at hr
    split at hr
    · next hlt =>
      cases hr
      have hle := hspread i mn rfl hlt
      refine ⟨.spread ?_, hu, hb⟩
      rw [min_eq_left hle] at hb
      exact hb.mono fun j k hj _ => hi.inside_lt j k hj
    · cases hr
      exact ⟨.quiet, trivial⟩

theorem holds_of_reach {s : Sys Mem Pc} (h : (machine threadNum).Reach (calm threadNum) fresh s) :
    Machine.Holds (Inv threadNum) (fun u pc m => pc.At threadNum u m) s := by
  refine h.invariant ?_ ?_
  · rintro s ⟨hm, hl⟩
    refine ⟨?_, fun u => ?_⟩
    · rw [hm]
      constructor <;> simp [Mem.new, Mem.epochs, Epochs.Guarded, Epochs.Bound, Epochs.Spares]
    · rw [hl u]
      trivial
  · intro s a pc m' hs hcalm hact
    have hmove : Move threadNum a.thread s.mem m' ∧ pc.At threadNum a.thread m' := by
      cases a with
      | call u op =>
        refine call_move ?_ hact
        rintro rfl
        exact hcalm
      | run u =>
        refine run_move hs.1 (hs.2 u) ?_ ?_ ?_ hact
        · intro e hpc
          simpa only [calm, hpc] using hcalm
        · intro i mn e hpc
          simpa only [calm, hpc] using hcalm
        · intro i mn hpc
          simpa only [calm, hpc] using hcalm
    exact ⟨hmove.1.inv hs.1, hmove.2, fun u hu => (hs.2 u).move hu hmove.1⟩

/-! ## The claim -/

/-- In every calm run, no node is freed while an operation is open that had
joined when the node was added. -/
theorem freed_node_spares_open_operations {s : Sys Mem Pc}
    (h : (machine threadNum).Reach (calm threadNum) fresh s) :
    ∀ x ∈ s.mem.freed, ∀ j k, x.inside j = some k → x.node.serial < k :=
  (holds_of_reach h).1.harmless

def idleTree : Sys Mem Pc := ⟨Mem.new, fun _ => .idle⟩

/-- A call of thread `u` that takes `n` accesses. -/
def whole (u : Nat) (op : Op) (n : Nat) : List (Act Op) :=
  .call u op :: List.replicate n (.run u)

/-- Two workers come and go, thread 0 adds a node in an operation of its own, and
two rounds later it frees the node while thread 1 is inside a later operation. -/
def calmRounds : List (Act Op) :=
  whole 1 .joinEpoch 2 ++ whole 1 .leaveEpoch 2 ++
  whole 0 .joinEpoch 2 ++ whole 0 (.addGarbageNode 40) 2 ++ whole 0 .leaveEpoch 2 ++
  whole 2 .increaseEpoch 12 ++ whole 2 .increaseEpoch 12 ++
  whole 1 .joinEpoch 2 ++ whole 0 .performGC 3

theorem calmRounds_run : ((machine 2).runUnder (calm 2) calmRounds idleTree).any fun s =>
      s.mem.freed.map (fun x => (x.node.nodeP, x.node.serial, x.inside 1)) = [(40, 0, some 1)] := by
  decide +kernel

theorem freed_node_spares_open_operations_calmRounds :
    ∃ s : Sys Mem Pc, (machine 2).Reach (calm 2) fresh s ∧ s.mem.freed ≠ [] ∧
      ∀ x ∈ s.mem.freed, ∀ j k, x.inside j = some k → x.node.serial < k := by
  obtain ⟨s, _, hreach, h⟩ := Machine.reach_of_any fresh ⟨rfl, fun _ => rfl⟩ calmRounds_run
  refine ⟨s, hreach, ?_, freed_node_spares_open_operations hreach⟩
  intro hnil
  have := h
  rw [hnil] at this
  cases this

/-- Thread 1 is inside an operation when thread 0 adds a node; the second round
does not see the epoch of that operation any more. -/
def roundsInside : List (Act Op) :=
  whole 1 .joinEpoch 2 ++ whole 0 .joinEpoch 2 ++ whole 0 (.addGarbageNode 40) 2 ++
  whole 2 .increaseEpoch 12 ++ whole 2 .increaseEpoch 12 ++ whole 0 .performGC 3

theorem roundsInside_run : ((machine 2).runUnder Machine.free roundsInside idleTree).any fun s =>
      s.mem.freed.map (fun x => (x.node.serial, x.inside 1)) = [(0, some 0)] := by
  decide +kernel

/-- A node is freed while an operation is open that had joined when the node was
added. -/
theorem freed_node_hits_open_operation : ∃ s : Sys Mem Pc, (machine 2).Reach Machine.free fresh s ∧
      ∃ x ∈ s.mem.freed, ∃ j k, x.inside j = some k ∧ k ≤ x.node.serial := by
  obtain ⟨s, _, hreach, h⟩ := Machine.reach_of_any fresh ⟨rfl, fun _ => rfl⟩ roundsInside_run
  obtain ⟨x, hx, heq⟩ := List.map_eq_singleton_iff.mp h
  simp only [Prod.mk.injEq] at heq
  refine ⟨s, hreach, x, by rw [hx]; simp, 1, 0, heq.2, ?_⟩
  rw [heq.1]

end ShmPcc.BwTreeGc
