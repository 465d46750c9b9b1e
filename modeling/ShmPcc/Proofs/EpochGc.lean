import ShmPcc.Lib.Epoch
import ShmPcc.Ref.EpochGc

/-!
# When the epoch collector is safe

A thread inside an operation is protected by its local epoch: it is at most the
global epoch at the time the `begin_op` finished, hence at most the epoch of
every node retired from then on, and a reclaimer that reads it keeps all those
nodes. The reclaimer reads the local epochs one after another, but all of them
after it retired its nodes, so an operation that was open when a node was
retired and still is was open when its epoch was read.

All of this needs the local epoch to stay as `begin_op` left it, and the rounds
of `gc_loop` overwrite it. `calm` are the runs in which they do not do so while
the thread is inside an operation. It also rules out a `begin_op` inside an
operation, which moves the local epoch on as well, and a global epoch that runs
over.
-/

namespace ShmPcc.EpochGc

open Function

/-- The restriction. -/
def calm (s : Sys Mem Thread) : Act Op → Prop
  | .call u .beginOp =>
    match (s.loc u).tid with
    | some tid => s.mem.opened tid = none
    | none => True
  | .call _ _ => True
  | .run u =>
    match (s.loc u).pc with
    | .tickAdd => s.mem.globalEpoch < int64Max
    | .tickStore i _ => s.mem.opened i = none
    | _ => True

instance (s : Sys Mem Thread) (a : Act Op) : Decidable (calm s a) := by
  unfold calm
  split
  · split <;> infer_instance
  · infer_instance
  · split <;> infer_instance

/-! ## The invariant -/

/-- The collector as a scheme of epochs. -/
def Mem.epochs (m : Mem) : Epochs Nat Int where
  now := m.globalEpoch
  published := m.localEpoch
  inside := m.opened
  retired := m.retireEpochs

structure Inv (m : Mem) : Prop where
  owner_length : m.owner.length = m.registeredThreads
  epoch_nonneg : 0 ≤ m.globalEpoch
  retired_nonneg : ∀ e ∈ m.retireEpochs, 0 ≤ e
  stamped : ∀ t, ∀ n ∈ m.retiredNodes t, m.retireEpochs[n.serial]? = some n.retireEpoch
  opened_lt : ∀ j k, m.opened j = some k → j < m.registeredThreads
  guarded : m.epochs.Guarded
  /-- No callback hit an operation that was open when its node was retired. -/
  harmless : ∀ x ∈ m.invoked, ∀ j k, x.opened j = some k → x.node.serial < k

/-- The operations of the ids in `P` do not hold the nodes of `t` back below
epoch `e`. -/
def Clear (P : Nat → Prop) (e : Int) (t : Nat) (m : Mem) : Prop :=
  ∀ n ∈ m.retiredNodes t, m.epochs.Spares P e n.serial

/-- What a thread with id `t` knows where it stands. -/
def Pc.At (t : Nat) : Pc → Mem → Prop
  | .beginLoad, m => m.opened t = none
  | .beginStore epoch, m => m.opened t = none ∧ epoch ≤ m.globalEpoch
  | .retirePush node, m => m.retireEpochs[node.serial]? = some node.retireEpoch
  | .endLoad, m | .endStore _, m => m.opened t = none
  | .reclaimCheck i minEpoch, m | .reclaimLoad i minEpoch, m => Clear (· < i) minEpoch t m
  | .scan _ safe, m => Clear (fun _ => True) safe t m
  | _, _ => True

/-- The assertion of thread `u`. -/
def Knows (u : Nat) (l : Thread) (m : Mem) : Prop :=
  (∀ t, l.tid = some t → m.owner[t]? = some u ∧ l.pc.At t m) ∧
    ∀ t, l.pc = .registerStore t → m.owner[t]? = some u ∧ m.opened t = none

/-! ## What one access does -/

/-- The changes thread `u` makes, with what it knows then. -/
inductive Move (u : Nat) (m : Mem) : Mem → Prop where
  | quiet : Move u m m
  | register :
      Move u m { m with registeredThreads := m.registeredThreads + 1, owner := m.owner ++ [u] }
  | setLocal {t : Nat} {e : Int} (h : m.opened t = none) :
      Move u m { m with localEpoch := update m.localEpoch t e }
  | enter {t : Nat} {e : Int} (ho : m.owner[t]? = some u) (he : e ≤ m.globalEpoch) :
      Move u m { m with
        localEpoch := update m.localEpoch t e
        opened := update m.opened t (some m.retireEpochs.length) }
  | leave {t : Nat} : Move u m { m with opened := update m.opened t none }
  | stamp : Move u m { m with retireEpochs := m.retireEpochs ++ [m.globalEpoch] }
  | setRetired {t : Nat} {ns : List RetiredNode} (ho : m.owner[t]? = some u)
      (hn : ∀ n ∈ ns, m.retireEpochs[n.serial]? = some n.retireEpoch) :
      Move u m { m with retiredNodes := update m.retiredNodes t ns }
  | invoke {t : Nat} {n : RetiredNode} {ns : List RetiredNode} (ho : m.owner[t]? = some u)
      (hn : ∀ n ∈ ns, m.retireEpochs[n.serial]? = some n.retireEpoch)
      (hsafe : ∀ j k, m.opened j = some k → n.serial < k) :
      Move u m { m with
        retiredNodes := update m.retiredNodes t ns
        invoked := m.invoked ++ [⟨n, m.opened⟩] }
  | tick {e : Int} (h : m.globalEpoch ≤ e) : Move u m { m with globalEpoch := e }

variable {m m' : Mem} {u w : Nat}

/-- To the epochs each of them is a step of a sound scheme. -/
theorem Move.epochs (h : Move u m m') : m.epochs.Step m'.epochs := by
  cases h with
  | setLocal hnone => exact .publish hnone
  | enter ho he => exact .enter he
  | leave => exact .leave
  | stamp => exact .retire
  | tick hle => exact .advance hle
  | _ => exact .stay

variable {t : Nat}

theorem retired_update {f : Nat → List RetiredNode} {i : Nat} {ns : List RetiredNode}
    {P : RetiredNode → Prop} (hns : ∀ n ∈ ns, P n) (hf : ∀ n ∈ f i, P n) :
    ∀ n ∈ update f t ns i, P n := by
  rw [update_apply]
  split
  · exact hns
  · exact hf

theorem Move.inv (hi : Inv m) (h : Move u m m') : Inv m' := by
  have hg := h.epochs.guarded hi.guarded
  cases h with
  | quiet => exact hi
  | register =>
    exact { hi with
      owner_length := by simp [hi.owner_length]
      opened_lt := fun j k hj => Nat.lt_succ_of_lt (hi.opened_lt j k hj) }
  | setLocal hnone => exact { hi with guarded := hg }
  | enter ho he =>
    refine { hi with opened_lt := fun j k hj => ?_, guarded := hg }
    rcases Epochs.inside_update (s := m.epochs) hj with ⟨rfl, _⟩ | ⟨_, hj⟩
    · rw [← hi.owner_length]
      exact (List.getElem?_eq_some_iff.mp ho).1
    · exact hi.opened_lt j k hj
  | leave =>
    refine { hi with opened_lt := fun j k hj => ?_, guarded := hg }
    rcases Epochs.inside_update (s := m.epochs) hj with ⟨_, hk⟩ | ⟨_, hj⟩
    · cases hk
    · exact hi.opened_lt j k hj
  | stamp =>
    refine { hi with retired_nonneg := fun e he => ?_, stamped := ?_, guarded := hg }
    · rcases List.mem_append.mp he with he | he
      · exact hi.retired_nonneg e he
      · rw [List.mem_singleton.mp he]
        exact hi.epoch_nonneg
    · exact fun t n hn => Outline.getElem?_snoc (hi.stamped t n hn)
  | setRetired ho hn =>
    exact { hi with stamped := fun i => retired_update hn (hi.stamped i) }
  | invoke ho hn hsafe =>
    refine { hi with
      stamped := fun i => retired_update hn (hi.stamped i)
      harmless := fun x hx => ?_ }
    rcases List.mem_append.mp hx with hx | hx
    · exact hi.harmless x hx
    · rw [List.mem_singleton.mp hx]
      exact hsafe
  | tick hle => exact { hi with epoch_nonneg := Int.le_trans hi.epoch_nonneg hle, guarded := hg }

/-! ## What a thread knows survives the others -/

theorem Move.owner (h : Move u m m') (ht : m.owner[t]? = some w) : m'.owner[t]? = some w := by
  cases h with
  | register => exact Outline.getElem?_snoc ht
  | _ => exact ht

theorem Move.opened_none (hw : w ≠ u) (ho : m.owner[t]? = some w) (h : Move u m m')
    (ht : m.opened t = none) : m'.opened t = none := by
  cases h with
  | @enter i e hu he =>
    have hne : t ≠ i := by
      rintro rfl
      exact hw (Option.some.inj (ho.symm.trans hu))
    exact (update_of_ne hne ..).trans ht
  | @leave i =>
    dsimp only
    rw [update_apply]
    split
    · rfl
    · exact ht
  | _ => exact ht

theorem Move.retiredNodes (hw : w ≠ u) (ho : m.owner[t]? = some w) (h : Move u m m') :
    m'.retiredNodes t = m.retiredNodes t := by
  have hother : ∀ i, m.owner[i]? = some u → t ≠ i := by
    rintro i hu rfl
    exact hw (Option.some.inj (ho.symm.trans hu))
  cases h with
  | setRetired hu hn | invoke hu hn hsafe => exact update_of_ne (hother _ hu) ..
  | _ => rfl

theorem Clear.move {P : Nat → Prop} {e : Int} (hw : w ≠ u) (hi : Inv m) (ho : m.owner[t]? = some w)
    (hc : Clear P e t m) (h : Move u m m') : Clear P e t m' := by
  intro n hn
  rw [h.retiredNodes hw ho] at hn
  have hlt := (List.getElem?_eq_some_iff.mp (hi.stamped t n hn)).1
  exact (hc n hn).step hlt h.epochs

theorem Pc.At.move {pc : Pc} (hw : w ≠ u) (hi : Inv m) (ho : m.owner[t]? = some w) (hat : pc.At t m)
    (h : Move u m m') : pc.At t m' := by
  cases pc with
  | beginLoad | endLoad | endStore e => exact h.opened_none hw ho hat
  | beginStore e =>
    refine ⟨h.opened_none hw ho hat.1, ?_⟩
    cases h with
    | tick hle => exact Int.le_trans hat.2 hle
    | _ => exact hat.2
  | retirePush node => exact h.epochs.retired hat
  | reclaimCheck i e | reclaimLoad i e | scan it e => exact Clear.move hw hi ho hat h
  | _ => trivial

theorem Knows.move {l : Thread} (hw : w ≠ u) (hi : Inv m) (hk : Knows w l m) (h : Move u m m') :
    Knows w l m' := by
  refine ⟨fun t ht => ?_, fun t ht => ?_⟩
  · obtain ⟨ho, hat⟩ := hk.1 t ht
    exact ⟨h.owner ho, hat.move hw hi ho h⟩
  · obtain ⟨ho, hnone⟩ := hk.2 t ht
    exact ⟨h.owner ho, h.opened_none hw ho hnone⟩

/-! ## Every access is one of these moves -/

theorem knows_at {tid : Option Nat} {pc : Pc} (ho : ∀ t, tid = some t → m.owner[t]? = some u)
    (hat : ∀ t, tid = some t → pc.At t m) (hpc : ∀ t, pc ≠ .registerStore t) :
    Knows u ⟨tid, pc⟩ m :=
  ⟨fun t ht => ⟨ho t ht, hat t ht⟩, fun t ht => absurd ht (hpc t)⟩

theorem call_move {op : Op} {l l' : Thread} (hk : Knows u l m)
    (hcalm : op = .beginOp → ∀ t, l.tid = some t → m.opened t = none)
    (hc : call u op l m = some (l', m')) : Move u m m' ∧ Knows u l' m' := by
  obtain ⟨tid, pc⟩ := l
  have ho := fun t ht => (hk.1 t ht).1
  cases pc with
  | idle =>
    cases op with
    | tick =>
      simp only [call] at hc
      split at hc
      · cases hc
        exact ⟨.quiet, knows_at ho (fun _ _ => trivial) nofun⟩
      · cases hc
    | registerThread =>
      cases tid with
      | none =>
        simp only [call] at hc
        split at hc
        · cases hc
        · cases hc
          exact ⟨.quiet, knows_at ho (fun _ _ => trivial) nofun⟩
      | some t => cases hc
    | beginOp =>
      cases tid with
      | none => cases hc
      | some t =>
        cases hc
        exact ⟨.quiet, knows_at ho (hcalm rfl) nofun⟩
    | retire addr size callback =>
      cases tid with
      | none => cases hc
      | some t =>
        cases hc
        exact ⟨.quiet, knows_at ho (fun _ _ => trivial) nofun⟩
    | endOp =>
      cases tid with
      | none => cases hc
      | some t =>
        cases hc
        refine ⟨.leave, knows_at ho (fun i hi => ?_) nofun⟩
        rw [← Option.some.inj hi]
        exact update_self ..
  | _ => cases hc

theorem runOp_move {pc pc' : Pc} (hi : Inv m) (ho : m.owner[t]? = some u) (hat : pc.At t m)
    (hr : runOp t pc m = some (pc', m')) :
    Move u m m' ∧ pc'.At t m' ∧ ∀ t, pc' ≠ .registerStore t := by
  cases pc with
  | beginLoad =>
    cases hr
    exact ⟨.quiet, ⟨hat, Int.le_refl _⟩, nofun⟩
  | beginStore e =>
    cases hr
    exact ⟨.enter ho hat.2, trivial, nofun⟩
  | retireLoad addr size callback =>
    cases hr
    exact ⟨.stamp, List.getElem?_concat_length, nofun⟩
  | retirePush node =>
    cases hr
    refine ⟨.setRetired ho fun n hn => ?_, trivial, nofun⟩
    rcases List.mem_append.mp hn with hn | hn
    · exact hi.stamped t n hn
    · rw [List.mem_singleton.mp hn]
      exact hat
  | endLoad =>
    cases hr
    exact ⟨.quiet, hat, nofun⟩
  | endStore e =>
    cases hr
    exact ⟨.setLocal hat, fun n _ => .none fun j => Nat.not_lt_zero j, nofun⟩
  | reclaimCheck i e =>
    simp only [runOp] at hr
    split at hr
    · cases hr
      exact ⟨.quiet, hat, nofun⟩
    · next hge =>
      cases hr
      -- every open operation has been read
      refine ⟨.quiet, fun n hn => (hat n hn).mono (fun j k hj _ => ?_) fun e' he' hle => ?_, nofun⟩
      · exact (hi.opened_lt j k hj).trans_le (Nat.le_of_not_lt hge)
      · have h0 := hi.retired_nonneg e' (List.mem_of_getElem? he')
        rw [safeEpoch]
        split <;> omega
  | reclaimLoad i e =>
    simp only [runOp] at hr
    split at hr
    · cases hr
      exact ⟨.quiet, fun n hn => (hat n hn).read hi.guarded fun j hj =>
        Nat.lt_succ_iff_lt_or_eq.mp hj, nofun⟩
    · cases hr
  | scan it e =>
    simp only [runOp] at hr
    split at hr
    · cases hr
      exact ⟨.quiet, trivial, nofun⟩
    · next n hn =>
      split at hr
      · next hlt =>
        cases hr
        have hsub : ∀ x ∈ (m.retiredNodes t).eraseIdx it, x ∈ m.retiredNodes t :=
          fun x => List.mem_of_mem_eraseIdx
        have hmem := List.mem_of_getElem? hn
        refine ⟨.invoke ho (fun x hx => hi.stamped t x (hsub x hx))
          ((hat n hmem).safe (hi.stamped t n hmem) hlt), fun x hx => ?_, nofun⟩
        dsimp only at hx
        rw [update_self] at hx
        exact hat x (hsub x hx)
      · cases hr
        exact ⟨.quiet, hat, nofun⟩
  | _ => cases hr

/-- The same for the thread, which keeps its id. -/
theorem op_move {pc : Pc} {l' : Thread} (hi : Inv m) (hk : Knows u ⟨some t, pc⟩ m)
    (hr : (runOp t pc m).map (fun x => ((⟨some t, x.1⟩ : Thread), x.2)) = some (l', m')) :
    Move u m m' ∧ Knows u l' m' := by
  obtain ⟨⟨pc', m''⟩, hx, heq⟩ := Option.map_eq_some_iff.mp hr
  cases heq
  obtain ⟨hown, hat⟩ := hk.1 t rfl
  obtain ⟨hmove, hat', hne⟩ := runOp_move hi hown hat hx
  refine ⟨hmove, knows_at (fun i hi => ?_) (fun i hi => ?_) hne⟩
  · exact Option.some.inj hi ▸ hmove.owner hown
  · exact Option.some.inj hi ▸ hat'

theorem run_move {l l' : Thread} (hi : Inv m) (hk : Knows u l m)
    (htick : l.pc = .tickAdd → m.globalEpoch < int64Max)
    (hstore : ∀ i e, l.pc = .tickStore i e → m.opened i = none)
    (hr : run u l m = some (l', m')) : Move u m m' ∧ Knows u l' m' := by
  obtain ⟨tid, pc⟩ := l
  have ho := fun t ht => (hk.1 t ht).1
  cases pc with
  | registerAdd =>
    cases hr
    have hnone : m.opened m.registeredThreads = none := by
      cases hj : m.opened m.registeredThreads with
      | none => rfl
      | some k => exact absurd (hi.opened_lt _ k hj) (Nat.lt_irrefl _)
    have hown : (m.owner ++ [u])[m.registeredThreads]? = some u := by
      rw [← hi.owner_length]
      exact List.getElem?_concat_length
    refine ⟨.register, fun t ht => (nomatch ht), fun t ht => ?_⟩
    cases ht
    exact ⟨hown, hnone⟩
  | registerStore t =>
    simp only [run] at hr
    split at hr
    · cases hr
      obtain ⟨hown, hnone⟩ := hk.2 t rfl
      refine ⟨.setLocal hnone, knows_at (fun i hi => ?_) (fun _ _ => trivial) nofun⟩
      exact Option.some.inj hi ▸ hown
    · cases hr
  | tickAdd =>
    cases hr
    have hlt := htick rfl
    have h0 := hi.epoch_nonneg
    have heq : toInt64 (m.globalEpoch + 1) = m.globalEpoch + 1 := by
      simp only [int64Max] at hlt
      rw [toInt64, Int.bmod_eq_of_le] <;> omega
    exact ⟨.tick (by omega), knows_at ho (fun _ _ => trivial) nofun⟩
  | tickCheck i e =>
    simp only [run] at hr
    split at hr
    · cases hr
      exact ⟨.quiet, knows_at ho (fun _ _ => trivial) nofun⟩
    · cases hr
      exact ⟨.quiet, knows_at ho (fun _ _ => trivial) nofun⟩
  | tickStore i e =>
    simp only [run] at hr
    split at hr
    · cases hr
      exact ⟨.setLocal (hstore i e rfl), knows_at ho (fun _ _ => trivial) nofun⟩
    · cases hr
  | _ =>
    cases tid with
    | none => cases hr
    | some t => exact op_move hi hk hr

theorem holds_of_reach {s : Sys Mem Thread} (h : machine.Reach calm fresh s) :
    Machine.Holds Inv Knows s := by
  refine h.invariant ?_ ?_
  · rintro s ⟨hm, hl⟩
    refine ⟨?_, fun u => ?_⟩
    · rw [hm]
      constructor <;> simp [Mem.new, Mem.epochs, Epochs.Guarded]
    · rw [hl u]
      exact ⟨fun t ht => (nomatch ht), fun t ht => (nomatch ht)⟩
  · intro s a l m' hs hcalm hact
    have hmove : Move a.thread s.mem m' ∧ Knows a.thread l m' := by
      cases a with
      | call u op =>
        refine call_move (hs.2 u) ?_ hact
        rintro rfl t ht
        simpa only [calm, ht] using hcalm
      | run u =>
        refine run_move hs.1 (hs.2 u) ?_ ?_ hact
        · intro hpc
          simpa only [calm, hpc] using hcalm
        · intro i e hpc
          simpa only [calm, hpc] using hcalm
    exact ⟨hmove.1.inv hs.1, hmove.2, fun u hu => (hs.2 u).move hu hs.1 hmove.1⟩

/-- In a calm run no callback is invoked while an operation is open whose
`begin_op` finished before the node was retired. -/
theorem callback_spares_open_operations {s : Sys Mem Thread} (h : machine.Reach calm fresh s) :
    ∀ x ∈ s.mem.invoked, ∀ j k, x.opened j = some k → x.node.serial < k :=
  (holds_of_reach h).1.harmless

def idleCollector : Sys Mem Thread := ⟨Mem.new, fun _ => ⟨none, .idle⟩⟩

/-- A call of thread `u` that takes `n` accesses. -/
def whole (u : Nat) (op : Op) (n : Nat) : List (Act Op) :=
  .call u op :: List.replicate n (.run u)

/-- Thread 1 retires a node in an operation of its own; after three rounds of
`gc_loop` its next `end_op` reclaims it, while thread 2 is inside an operation
that began after the third. -/
def calmReclaim : List (Act Op) :=
  whole 1 .registerThread 2 ++ whole 2 .registerThread 2 ++
  whole 1 .beginOp 2 ++ whole 1 (.retire 40 8 0) 2 ++ whole 1 .endOp 9 ++
  whole 0 .tick 6 ++ whole 0 .tick 6 ++ whole 0 .tick 6 ++
  whole 2 .beginOp 2 ++ whole 1 .beginOp 2 ++ whole 1 .endOp 9

theorem calmReclaim_run : (machine.runUnder calm calmReclaim idleCollector).any fun s =>
      s.mem.invoked.map (fun x => (x.node.addr, x.node.serial, x.opened 1)) = [(40, 0, some 1)] := by
  decide +kernel

theorem callback_spares_open_operations_calmReclaim :
    ∃ s : Sys Mem Thread, machine.Reach calm fresh s ∧ s.mem.invoked ≠ [] ∧
      ∀ x ∈ s.mem.invoked, ∀ j k, x.opened j = some k → x.node.serial < k := by
  obtain ⟨s, _, hreach, h⟩ := Machine.reach_of_any fresh ⟨rfl, fun _ => rfl⟩ calmReclaim_run
  refine ⟨s, hreach, ?_, callback_spares_open_operations hreach⟩
  intro hnil
  have := h
  rw [hnil] at this
  cases this

/-- Thread 2 is inside an operation when thread 1 retires a node; two rounds of
`gc_loop` later thread 1 reclaims it. -/
def roundsInside : List (Act Op) :=
  whole 1 .registerThread 2 ++ whole 2 .registerThread 2 ++
  whole 2 .beginOp 2 ++ whole 1 .beginOp 2 ++ whole 1 (.retire 40 8 0) 2 ++
  whole 0 .tick 6 ++ whole 0 .tick 6 ++ whole 1 .endOp 8

theorem roundsInside_run : (machine.runUnder Machine.free roundsInside idleCollector).any fun s =>
      s.mem.invoked.map (fun x => (x.node.serial, x.opened 1)) = [(0, some 0)] := by
  decide +kernel

/-- The callback is invoked while an operation is open that was open before the
node was retired. -/
theorem callback_hits_open_operation : ∃ s : Sys Mem Thread, machine.Reach Machine.free fresh s ∧
      ∃ x ∈ s.mem.invoked, ∃ j k, x.opened j = some k ∧ k ≤ x.node.serial := by
  obtain ⟨s, _, hreach, h⟩ := Machine.reach_of_any fresh ⟨rfl, fun _ => rfl⟩ roundsInside_run
  obtain ⟨x, hx, heq⟩ := List.map_eq_singleton_iff.mp h
  simp only [Prod.mk.injEq] at heq
  refine ⟨s, hreach, x, by rw [hx]; simp, 1, 0, heq.2, ?_⟩
  rw [heq.1]

end ShmPcc.EpochGc
