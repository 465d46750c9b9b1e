import ShmPcc.Lib.Epoch
import ShmPcc.Ref.BwTreeCache

/-!
# When the cached mapping table is safe

The epochs protect what is retired while an operation is open: its epoch is at
most the epoch of everything handed to `AddGarbageNode` since it joined. A node
loaded from `mapping_table` is protected, because a chain is retired only after
it was replaced there. A node loaded from a cache need not be: the caches are
cleared just before the free, so an operation can join after a chain was retired
and still find it in a cache. It then holds a node, or is about to look at the
type of one, that the collector does not see.

`calm` are the runs in which no `GetNode` loads a retired node from a cache and
the epoch does not run over. In them every node in the hands of an operation is
`Safe`: each time its chain was retired lies after the join of the operation, so
the bound `PerformGC` takes keeps the chain.
-/

namespace ShmPcc.BwTreeCache

open Function
open BwTreeGc (uint64Max)

variable {threadNum : Nat}

/-- The restriction. -/
def calm (s : Sys Mem Pc) : Act Op → Prop
  | .call _ _ => True
  | .run u =>
    match s.loc u with
    | .cacheLoad nodeId =>
      ∀ n ∈ s.mem.localCache u nodeId, ∀ g ∈ s.mem.retired, g.chain ≠ n.chain
    | .tickStore epoch => epoch < uint64Max
    | _ => True

instance (s : Sys Mem Pc) (a : Act Op) : Decidable (calm s a) := by
  unfold calm
  split
  · infer_instance
  · split <;> infer_instance

/-! ## The invariant -/

/-- The collector as a scheme of epochs. -/
def Mem.epochs (m : Mem) : Epochs Nat Nat where
  now := m.epoch
  published := m.lastActiveEpoch
  inside := m.inside
  retired := m.retired.map (·.deleteEpoch)

/-- The chain has been tried to install. -/
def Settled (c : Chain) (m : Mem) : Prop :=
  ∀ i, c = .made i → m.made.Settled i

/-- The chain is in no entry of the mapping table, for good. -/
def Loose (c : Chain) (m : Mem) : Prop :=
  Settled c m ∧ ∀ id, (m.mappingTable id).chain ≠ c

/-- Thread `w` is inside an operation that joined before the chain of `n` was
retired, and the chain is not freed. -/
def Safe (w : Nat) (n : Node) (m : Mem) : Prop :=
  ∃ k, m.inside w = some k ∧ (∀ (i : Nat) g, m.retired[i]? = some g → g.chain = n.chain → k ≤ i) ∧
    n.chain ∉ m.freed

/-- The operations of the threads in `P` do not hold the garbage of `t` back below
epoch `e`. -/
def Clear (P : Nat → Prop) (e t : Nat) (m : Mem) : Prop :=
  ∀ g ∈ m.garbage t, m.epochs.Spares P e g.serial

structure Inv (threadNum : Nat) (m : Mem) : Prop where
  inside_lt : ∀ j k, m.inside j = some k → j < threadNum ∧ k ≤ m.retired.length
  stamped : ∀ t, ∀ g ∈ m.garbage t, m.retired[g.serial]? = some g
  guarded : m.epochs.Guarded
  settled : ∀ id, Settled (m.mappingTable id).chain m
  distinct : ∀ id id', (m.mappingTable id).chain = (m.mappingTable id').chain → id = id'
  /-- What was retired is not in the table. -/
  loose : ∀ g ∈ m.retired, Loose g.chain m
  freed : ∀ c ∈ m.freed, ∃ g ∈ m.retired, g.chain = c
  held : ∀ w, ∀ n ∈ m.held w, Safe w n m

/-- What thread `u` knows where it stands. -/
def Pc.At (threadNum u : Nat) : Pc → Mem → Prop
  | .joinLoad, m => u < threadNum ∧ m.inside u = none
  | .joinStore epoch, m => (u < threadNum ∧ m.inside u = none) ∧ epoch ≤ m.epoch
  | .leaveLoad, m | .leaveStore _, m => m.inside u = none
  | .cacheLoad _, m | .tableLoad _, m | .bypassLoad _, m => m.inside u ≠ none
  | .inspect _ n, m | .catchupLoad _ n, m | .catchupStore _ n, m | .bypassStore _ n, m =>
    Safe u n m
  | .replaceCas _ node _, m => ∃ i, node.chain = .made i ∧ m.made.HeldBy u i
  | .addLoad chain _, m => Loose chain m
  | .addLink node, m => m.retired[node.serial]? = some node
  | .summarize i minEpoch, m => Clear (· < i) minEpoch u m
  | .gcNext minEpoch, m => Clear (fun _ => True) minEpoch u m
  | .gcClear minEpoch node _, m =>
    Clear (fun _ => True) minEpoch u m ∧ m.retired[node.serial]? = some node ∧
      node.deleteEpoch < minEpoch ∧ m.epochs.Spares (fun _ => True) minEpoch node.serial
  | .tickLoad, _ => u = threadNum
  | .tickStore epoch, m => u = threadNum ∧ epoch = m.epoch
  | _, _ => True

/-! ## What one access does -/

/-- The changes thread `u` makes, with what it knows then. -/
inductive Move (threadNum u : Nat) (m : Mem) : Mem → Prop where
  | cache {c : Nat → Nat → Option Node} : Move threadNum u m { m with cachedMappingTable := c }
  | got {c : Nat → Nat → Option Node} {n : Node} (hn : Safe u n m) : Move threadNum u m { m with
        cachedMappingTable := c, held := update m.held u (n :: m.held u) }
  | setLastActive {e : Nat} (h : m.inside u = none) :
      Move threadNum u m { m with lastActiveEpoch := update m.lastActiveEpoch u e }
  | join {e : Nat} (hu : u < threadNum) (hnone : m.inside u = none) (he : e ≤ m.epoch) :
      Move threadNum u m { m with
        lastActiveEpoch := update m.lastActiveEpoch u e
        inside := update m.inside u (some m.retired.length) }
  | leave : Move threadNum u m { m with
        inside := update m.inside u none, held := update m.held u [] }
  | delta {id : Nat} {n : Node} (hn : n.chain = (m.mappingTable id).chain) :
      Move threadNum u m { m with mappingTable := update m.mappingTable id n }
  | make : Move threadNum u m { m with made := m.made.draw u }
  | giveUp {i : Nat} (hu : m.made.HeldBy u i) :
      Move threadNum u m { m with made := m.made.settle i }
  | replace {id i : Nat} {n : Node} (hn : n.chain = .made i) (hu : m.made.HeldBy u i) :
      Move threadNum u m { m with
        made := m.made.settle i, mappingTable := update m.mappingTable id n }
  | stamp {c : Chain} {id : Nat} (hc : Loose c m) : Move threadNum u m
        { m with retired := m.retired ++ [⟨m.epoch, c, id, m.retired.length⟩] }
  | setGarbage {gs : List GarbageNode} (hg : ∀ g ∈ gs, m.retired[g.serial]? = some g) :
      Move threadNum u m { m with garbage := update m.garbage u gs }
  | free {g : GarbageNode} (hg : m.retired[g.serial]? = some g)
      (hsafe : ∀ j k, m.inside j = some k → g.serial < k) :
      Move threadNum u m { m with freed := m.freed ++ [g.chain] }
  | advance {e : Nat} (hu : u = threadNum) (he : m.epoch ≤ e) :
      Move threadNum u m { m with epoch := e }

variable {m m' : Mem} {u w : Nat}

theorem Move.epochs (h : Move threadNum u m m') : m.epochs.Step m'.epochs := by
  cases h with
  | setLastActive hnone => exact .publish hnone
  | join hu hnone he =>
    have hs := Epochs.Step.enter (s := m.epochs) (j := u) he
    simpa only [Mem.epochs, List.length_map] using hs
  | leave => exact .leave
  | stamp hc =>
    have hs := Epochs.Step.retire (s := m.epochs)
    simpa only [Mem.epochs, List.map_append, List.map_singleton] using hs
  | advance hu he => exact .advance he
  | _ => exact .stay

variable {g : GarbageNode}

theorem Move.retired {i : Nat} (h : Move threadNum u m m') (hi : m.retired[i]? = some g) :
    m'.retired[i]? = some g := by
  cases h with
  | stamp hc => exact Outline.getElem?_snoc hi
  | _ => exact hi

theorem Move.made (h : Move threadNum u m m') : m.made.Step u m'.made := by
  cases h with
  | make => exact .draw
  | giveUp hu => exact .settle hu
  | replace hn hu => exact .settle hu
  | _ => exact .stay

theorem Settled.move {c : Chain} (hc : Settled c m) (h : Move threadNum u m m') : Settled c m' :=
  fun i hi => (hc i hi).step h.made

/-- A chain that its maker has not tried to install is not settled. -/
theorem Settled.ne_made {c : Chain} {i : Nat} (hc : Settled c m) (hu : m.made.HeldBy u i) :
    c ≠ .made i :=
  fun hi => (hc i hi).ne hu rfl

theorem Loose.move {c : Chain} (hc : Loose c m) (h : Move threadNum u m m') : Loose c m' := by
  refine ⟨hc.1.move h, fun id => ?_⟩
  have hold := hc.2 id
  cases h with
  | @delta id' n hn =>
    dsimp only
    rw [update_apply]
    split
    · rw [hn]
      exact hc.2 id'
    · exact hold
  | @replace id' i n hn hu =>
    dsimp only
    rw [update_apply]
    split
    · rw [hn]
      exact (hc.1.ne_made hu).symm
    · exact hold
  | _ => exact hold

theorem Move.inside_eq (hw : w ≠ u) (h : Move threadNum u m m') : m'.inside w = m.inside w := by
  cases h with
  | join hu hnone he | leave => exact update_of_ne hw ..
  | _ => rfl

variable {n : Node}

/-- Inside an operation, what is safe stays safe until the operation leaves. -/
theorem Safe.move (hi : Inv threadNum m) (hs : Safe w n m) (h : Move threadNum u m m')
    (hw : m'.inside w ≠ none) : Safe w n m' := by
  obtain ⟨k, hk, hafter, hfree⟩ := hs
  cases h with
  | join hu hnone he =>
    have hne : w ≠ u := by
      rintro rfl
      rw [hnone] at hk
      cases hk
    exact ⟨k, (update_of_ne hne ..).trans hk, hafter, hfree⟩
  | leave =>
    have hne : w ≠ u := by
      rintro rfl
      exact hw (update_self ..)
    exact ⟨k, (update_of_ne hne ..).trans hk, hafter, hfree⟩
  | stamp hc =>
    refine ⟨k, hk, fun i g hg hgc => ?_, hfree⟩
    rcases getElem?_append_one hg with hg | ⟨rfl, _⟩
    · exact hafter i g hg hgc
    · exact (hi.inside_lt w k hk).2
  | @free g hg hsafe =>
    refine ⟨k, hk, hafter, fun hmem => ?_⟩
    rcases List.mem_append.mp hmem with hmem | hmem
    · exact hfree hmem
    · -- the collector saw this operation
      have hle := hafter g.serial g hg (List.mem_singleton.mp hmem).symm
      exact absurd (hsafe w k hk) (Nat.not_lt_of_le hle)
  | _ => exact ⟨k, hk, hafter, hfree⟩

theorem garbage_update {f : Nat → List GarbageNode} {t i : Nat} {gs : List GarbageNode}
    {P : GarbageNode → Prop} (hgs : ∀ g ∈ gs, P g) (hf : ∀ g ∈ f i, P g) :
    ∀ g ∈ update f t gs i, P g := by
  rw [update_apply]
  split
  · exact hgs
  · exact hf

variable {id : Nat}

/-- Two entries of the table stay on different chains when one gets a chain that
no other entry has. -/
theorem distinct_update {f : Nat → Node} (hf : ∀ i j, (f i).chain = (f j).chain → i = j)
    (hn : ∀ i, i ≠ id → (f i).chain ≠ n.chain) (i j : Nat)
    (h : (update f id n i).chain = (update f id n j).chain) : i = j := by
  by_cases hi : i = id <;> by_cases hj : j = id
  · rw [hi, hj]
  · rw [hi, update_self, update_of_ne hj] at h
    exact absurd h.symm (hn j hj)
  · rw [hj, update_self, update_of_ne hi] at h
    exact absurd h (hn i hi)
  · rw [update_of_ne hi, update_of_ne hj] at h
    exact hf i j h

theorem settled_update {f : Nat → Node} (hf : ∀ i, Settled (f i).chain m) (hn : Settled n.chain m)
    (i : Nat) : Settled (update f id n i).chain m := by
  rw [update_apply]
  split
  · exact hn
  · exact hf i

/-- What is held stays safe; a thread that leaves holds nothing. -/
theorem Move.held (hi : Inv threadNum m) (h : Move threadNum u m m') :
    ∀ w, ∀ n ∈ m'.held w, Safe w n m' := by
  intro w n hn
  have hold : n ∈ m.held w → m'.inside w ≠ none → Safe w n m' :=
    fun hmem => (hi.held w n hmem).move hi h
  have hin : n ∈ m.held w → m.inside w ≠ none := by
    intro hmem hnone
    obtain ⟨k, hk, _⟩ := hi.held w n hmem
    rw [hnone] at hk
    cases hk
  cases h with
  | @got c n' hsafe =>
    dsimp only at hn
    rw [update_apply] at hn
    split at hn
    · next hw =>
      rcases List.mem_cons.mp hn with rfl | hn
      · rw [hw]
        exact hsafe
      · rw [← hw] at hn
        exact hold hn (hin hn)
    · exact hold hn (hin hn)
  | join hu hnone he =>
    refine hold hn ?_
    dsimp only
    rw [update_apply]
    split
    · nofun
    · exact hin hn
  | leave =>
    dsimp only at hn
    rw [update_apply] at hn
    split at hn
    · cases hn
    · next hw =>
      refine hold hn ?_
      dsimp only
      rw [update_of_ne hw]
      exact hin hn
  | _ => exact hold hn (hin hn)

theorem Move.inv (hi : Inv threadNum m) (h : Move threadNum u m m') : Inv threadNum m' := by
  have hg := h.epochs.guarded hi.guarded
  have hheld := h.held hi
  have hset := fun id => (hi.settled id).move h
  have hloose := fun g hmem => (hi.loose g hmem).move h
  cases h with
  | cache | got hn => exact { hi with held := hheld }
  | setLastActive hnone | advance hu he => exact { hi with guarded := hg }
  | join hu hnone he =>
    refine { hi with inside_lt := fun j k hj => ?_, guarded := hg, held := hheld }
    rcases Epochs.inside_update (s := m.epochs) hj with ⟨rfl, hk⟩ | ⟨_, hj⟩
    · injection hk with hk
      exact ⟨hu, Nat.le_of_eq hk.symm⟩
    · exact hi.inside_lt j k hj
  | leave =>
    refine { hi with inside_lt := fun j k hj => ?_, guarded := hg, held := hheld }
    rcases Epochs.inside_update (s := m.epochs) hj with ⟨_, hk⟩ | ⟨_, hj⟩
    · cases hk
    · exact hi.inside_lt j k hj
  | @delta id n hn =>
    refine { hi with settled := ?_, distinct := ?_, loose := hloose, held := hheld }
    · exact settled_update hi.settled (hn ▸ hi.settled id)
    · refine distinct_update hi.distinct fun i hne heq => hne ?_
      exact hi.distinct i id (heq.trans hn)
  | make | giveUp hu => exact { hi with settled := hset, loose := hloose, held := hheld }
  | @replace id i n hn hu =>
    refine { hi with settled := ?_, distinct := ?_, loose := hloose, held := hheld }
    · refine settled_update hset fun j hj => ?_
      cases hn.symm.trans hj
      exact hu.settle
    · refine distinct_update hi.distinct fun j _ heq => ?_
      exact (hi.settled j).ne_made hu (heq.trans hn)
  | @stamp c id hc =>
    refine { hi with
      inside_lt := fun j k hj => ?_
      stamped := fun t g hmem => Outline.getElem?_snoc (hi.stamped t g hmem)
      guarded := hg, loose := fun g hmem => ?_, freed := fun c' hc' => ?_, held := hheld }
    · obtain ⟨hlt, hle⟩ := hi.inside_lt j k hj
      exact ⟨hlt, by simp; omega⟩
    · rcases List.mem_append.mp hmem with hmem | hmem
      · exact hi.loose g hmem
      · rw [List.mem_singleton.mp hmem]
        exact hc
    · obtain ⟨g, hmem, hgc⟩ := hi.freed c' hc'
      exact ⟨g, List.mem_append_left _ hmem, hgc⟩
  | setGarbage hgs => exact { hi with stamped := fun t => garbage_update hgs (hi.stamped t) }
  | @free g hgr hsafe =>
    refine { hi with freed := fun c hc => ?_, held := hheld }
    rcases List.mem_append.mp hc with hc | hc
    · exact hi.freed c hc
    · exact ⟨g, List.mem_of_getElem? hgr, (List.mem_singleton.mp hc).symm⟩

/-! ## What a thread knows survives the others -/

theorem Inv.serial_lt (hg : m.retired[g.serial]? = some g) :
    g.serial < m.epochs.retired.length := by
  have := (List.getElem?_eq_some_iff.mp hg).1
  simpa only [Mem.epochs, List.length_map] using this

theorem Clear.move {P : Nat → Prop} {e : Nat} (hw : w ≠ u) (hi : Inv threadNum m)
    (hc : Clear P e w m) (h : Move threadNum u m m') : Clear P e w m' := by
  intro g hg
  have hsame : m'.garbage w = m.garbage w := by
    cases h with
    | setGarbage hgs => exact update_of_ne hw ..
    | _ => rfl
  rw [hsame] at hg
  exact (hc g hg).step (Inv.serial_lt (hi.stamped w g hg)) h.epochs

theorem Move.epoch_eq (hw : w = threadNum) (hne : w ≠ u) (h : Move threadNum u m m') :
    m'.epoch = m.epoch := by
  cases h with
  | advance hu he => exact absurd (hw.trans hu.symm) hne
  | _ => rfl

theorem Pc.At.move {pc : Pc} (hw : w ≠ u) (hi : Inv threadNum m) (hat : pc.At threadNum w m)
    (h : Move threadNum u m m') : pc.At threadNum w m' := by
  have hin := h.inside_eq hw
  have hsafe : ∀ n, Safe w n m → Safe w n m' := by
    intro n hs
    refine hs.move hi h ?_
    obtain ⟨k, hk, _⟩ := hs
    rw [hin, hk]
    nofun
  cases pc with
  | joinLoad => exact ⟨hat.1, hin.trans hat.2⟩
  | joinStore e => exact ⟨⟨hat.1.1, hin.trans hat.1.2⟩, le_trans hat.2 h.epochs.now_le⟩
  | leaveLoad | leaveStore e => exact hin.trans hat
  | cacheLoad id | tableLoad id | bypassLoad id => exact fun hnone => hat (hin.symm.trans hnone)
  | inspect id n | catchupLoad id n | catchupStore id n | bypassStore id n => exact hsafe n hat
  | replaceCas id node prev =>
    obtain ⟨i, hn, hu⟩ := hat
    exact ⟨i, hn, hu.step hw h.made⟩
  | addLoad c id => exact Loose.move hat h
  | addLink g => exact h.retired hat
  | summarize i e | gcNext e => exact Clear.move hw hi hat h
  | gcClear e g i =>
    obtain ⟨hc, hg, hlt, hsp⟩ := hat
    exact ⟨hc.move hw hi h, h.retired hg, hlt, hsp.step (Inv.serial_lt hg) h.epochs⟩
  | tickLoad => exact hat
  | tickStore e => exact ⟨hat.1, hat.2.trans (h.epoch_eq hat.1 hw).symm⟩
  | _ => trivial

/-! ## Every access is one of these moves -/

/-- What a thread inside an operation loads and finds not retired is safe. -/
theorem safe_of_not_retired (hi : Inv threadNum m) (hu : m.inside u ≠ none)
    (hn : ∀ g ∈ m.retired, g.chain ≠ n.chain) : Safe u n m := by
  obtain ⟨k, hk⟩ := Option.ne_none_iff_exists'.mp hu
  refine ⟨k, hk, fun i g hg hgc => absurd hgc (hn g (List.mem_of_getElem? hg)), fun hmem => ?_⟩
  obtain ⟨g, hg, hgc⟩ := hi.freed _ hmem
  exact hn g hg hgc

theorem safe_of_table (hi : Inv threadNum m) (hu : m.inside u ≠ none) :
    Safe u (m.mappingTable id) m :=
  safe_of_not_retired hi hu fun g hg heq => (hi.loose g hg).2 id heq.symm

variable {pc' : Pc}

theorem call_move {op : Op} {pc : Pc} (hc : call threadNum u op pc m = some (pc', m')) :
    Move threadNum u m m' ∧ pc'.At threadNum u m' := by
  cases pc with
  | idle =>
    cases op with
    | joinEpoch | increaseEpoch =>
      simp only [call] at hc
      split at hc
      · next hu =>
        cases hc
        exact ⟨.cache, hu⟩
      · cases hc
    | leaveEpoch =>
      simp only [call] at hc
      split at hc
      · cases hc
      · cases hc
        exact ⟨.leave, update_self ..⟩
    | getNode id bypass =>
      simp only [call] at hc
      split at hc
      · cases hc
      · next hin =>
        split at hc
        · cases hc
          exact ⟨.cache, hin⟩
        · cases hc
          exact ⟨.cache, hin⟩
    | installDelta id prev | performGC =>
      simp only [call] at hc
      split at hc
      · cases hc
        exact ⟨.cache, trivial⟩
      · cases hc
    | consolidate id prev =>
      simp only [call] at hc
      split at hc
      · cases hc
        exact ⟨.make, m.made.count, rfl, Fresh.heldBy_draw⟩
      · cases hc
  | _ => cases hc

/-- The two outcomes of the CAS of a consolidation. -/
theorem replaceCas_move {node prev : Node} (hi : Inv threadNum m)
    (hat : (Pc.replaceCas id node prev).At threadNum u m)
    (hr : run threadNum u (.replaceCas id node prev) m = some (pc', m')) :
    Move threadNum u m m' ∧ pc'.At threadNum u m' := by
  obtain ⟨i, hn, hb⟩ := hat
  simp only [run, hn, Mem.settle] at hr
  split at hr
  · next hprev =>
    cases hr
    have hmove : Move threadNum u m { m with
        made := m.made.settle i
        mappingTable := update m.mappingTable id node } := .replace hn hb
    subst hprev
    refine ⟨hmove, (hi.settled id).move hmove, fun id' heq => ?_⟩
    dsimp only at heq
    rw [update_apply] at heq
    split at heq
    · rw [hn] at heq
      exact (hi.settled id).ne_made hb heq.symm
    · next hid => exact hid (hi.distinct id' id heq)
  · cases hr
    refine ⟨.giveUp hb, fun j hj => ?_, fun id' heq => (hi.settled id').ne_made hb heq⟩
    cases hj
    exact hb.settle

theorem gcClear_move {e i : Nat} (hat : (Pc.gcClear e g i).At threadNum u m)
    (hr : run threadNum u (.gcClear e g i) m = some (pc', m')) :
    Move threadNum u m m' ∧ pc'.At threadNum u m' := by
  obtain ⟨hc, hg, hlt, hsp⟩ := hat
  simp only [run] at hr
  split at hr
  · cases hr
    exact ⟨.cache, hc, hg, hlt, hsp⟩
  · cases hr
    refine ⟨.free hg (hsp.safe ?_ hlt), hc⟩
    simp only [Mem.epochs, List.getElem?_map, hg, Option.map_some]

theorem run_move {pc : Pc} (hi : Inv threadNum m) (hat : pc.At threadNum u m)
    (hcache : ∀ id, pc = .cacheLoad id → ∀ n ∈ m.localCache u id, ∀ g ∈ m.retired, g.chain ≠ n.chain)
    (htick : ∀ e, pc = .tickStore e → e < uint64Max) (hr : run threadNum u pc m = some (pc', m')) :
    Move threadNum u m m' ∧ pc'.At threadNum u m' := by
  cases pc with
  | idle => cases hr
  | joinLoad =>
    cases hr
    exact ⟨.cache, hat, le_rfl⟩
  | joinStore e =>
    cases hr
    exact ⟨.join hat.1.1 hat.1.2 hat.2, trivial⟩
  | leaveLoad =>
    cases hr
    exact ⟨.cache, hat⟩
  | leaveStore e =>
    cases hr
    exact ⟨.setLastActive hat, trivial⟩
  | cacheLoad id =>
    simp only [run] at hr
    split at hr
    · next n hn =>
      cases hr
      exact ⟨.cache, safe_of_not_retired hi hat (hcache id rfl n hn)⟩
    · cases hr
      exact ⟨.cache, hat⟩
  | inspect id n =>
    simp only [run] at hr
    split at hr
    · cases hr
      obtain ⟨k, hk, _⟩ := hat
      refine ⟨.cache, fun hnone => ?_⟩
      rw [hk] at hnone
      cases hnone
    · cases hr
      exact ⟨.got hat, trivial⟩
  | tableLoad id | bypassLoad id =>
    cases hr
    exact ⟨.cache, safe_of_table hi hat⟩
  | catchupLoad id n =>
    simp only [run] at hr
    split at hr
    · cases hr
      exact ⟨.got hat, trivial⟩
    · cases hr
      exact ⟨.cache, hat⟩
  | catchupStore id n | bypassStore id n =>
    cases hr
    exact ⟨.got hat, trivial⟩
  | deltaCas id prev =>
    cases hr
    split
    · next hprev =>
      refine ⟨.delta ?_, trivial⟩
      rw [hprev]
    · exact ⟨.cache, trivial⟩
  | replaceCas id node prev => exact replaceCas_move hi hat hr
  | addLoad c id =>
    cases hr
    exact ⟨.stamp hat, List.getElem?_concat_length⟩
  | addLink g =>
    cases hr
    refine ⟨.setGarbage fun g' hg' => ?_, ?_⟩
    · rcases List.mem_append.mp hg' with hg' | hg'
      · exact hi.stamped u g' hg'
      · rw [List.mem_singleton.mp hg']
        exact hat
    · split <;> trivial
  | summarizeFirst =>
    cases hr
    refine ⟨.cache, fun g _ j k e hj hin hk hr => ?_⟩
    rw [Nat.lt_one_iff.mp hj] at hin
    exact (hi.guarded 0 k hin).2 g.serial e hk hr
  | summarize i e =>
    simp only [run] at hr
    split at hr
    · cases hr
      refine ⟨.cache, fun g hg => ?_⟩
      rw [Nat.min_comm]
      exact (hat g hg).read hi.guarded fun j hj => Nat.lt_succ_iff_lt_or_eq.mp hj
    · next hge =>
      cases hr
      -- every open operation has been read
      refine ⟨.cache, fun g hg => (hat g hg).mono (fun j k hj _ => ?_) fun _ _ hle => hle⟩
      exact Nat.lt_of_lt_of_le (hi.inside_lt j k hj).1 (Nat.le_of_not_lt hge)
  | gcNext e =>
    simp only [run] at hr
    split at hr
    · cases hr
      exact ⟨.cache, trivial⟩
    · next g rest hlist =>
      split at hr
      · next hlt =>
        cases hr
        have hmem : ∀ x ∈ rest, x ∈ m.garbage u :=
          fun x hx => hlist ▸ List.mem_cons_of_mem g hx
        have hg : g ∈ m.garbage u := hlist ▸ .head _
        refine ⟨.setGarbage fun x hx => hi.stamped u x (hmem x hx), fun x hx => ?_,
          hi.stamped u g hg, hlt, hat g hg⟩
        dsimp only at hx
        rw [update_self] at hx
        exact hat x (hmem x hx)
      · cases hr
        exact ⟨.cache, trivial⟩
  | gcClear e g i => exact gcClear_move hat hr
  | tickLoad =>
    cases hr
    exact ⟨.cache, hat, rfl⟩
  | tickStore e =>
    cases hr
    obtain ⟨hu, rfl⟩ := hat
    have hlt := htick _ rfl
    have heq : (m.epoch + 1) % 2 ^ 64 = m.epoch + 1 := by
      simp only [uint64Max] at hlt
      exact Nat.mod_eq_of_lt (by omega)
    rw [heq]
    exact ⟨.advance hu (Nat.le_succ _), trivial⟩

theorem Inv.new (isLeaf : Nat → Bool) : Inv threadNum (Mem.new isLeaf) := by
  refine ⟨nofun, nofun, nofun, nofun, fun id id' h => ?_, nofun, nofun, nofun⟩
  injection h

theorem holds_of_reach {s : Sys Mem Pc} (h : (machine threadNum).Reach calm fresh s) :
    Machine.Holds (Inv threadNum) (fun u pc m => pc.At threadNum u m) s := by
  refine h.invariant ?_ ?_
  · intro s hs
    obtain ⟨⟨isLeaf, hm⟩, hl⟩ := hs
    refine ⟨hm ▸ Inv.new isLeaf, fun u => ?_⟩
    rw [hl u]
    trivial
  · intro s a pc m' hs hcalm hact
    have hmove : Move threadNum a.thread s.mem m' ∧ pc.At threadNum a.thread m' := by
      cases a with
      | call u op => exact call_move hact
      | run u =>
        refine run_move hs.1 (hs.2 u) (fun id hpc => ?_) (fun e hpc => ?_) hact
        · simp only [calm, hpc] at hcalm
          exact hcalm
        · simp only [calm, hpc] at hcalm
          exact hcalm
    exact ⟨hmove.1.inv hs.1, hmove.2, fun u hu => (hs.2 u).move hu hs.1 hmove.1⟩

/-! ## The claim -/

/-- In every calm run, no node that `GetNode` returned to an operation is freed
before the operation leaves, and no `GetNode` looks at a freed node. -/
theorem cached_table_never_leads_to_freed {s : Sys Mem Pc}
    (h : (machine threadNum).Reach calm fresh s) :
    (∀ u, ∀ n ∈ s.mem.held u, n.chain ∉ s.mem.freed) ∧
      ∀ u id n, s.loc u = .inspect id n → n.chain ∉ s.mem.freed := by
  obtain ⟨hinv, hat⟩ := holds_of_reach h
  refine ⟨fun u n hn => ?_, fun u id n hpc => ?_⟩
  · obtain ⟨_, _, _, hfree⟩ := hinv.held u n hn
    exact hfree
  · have hu := hat u
    rw [hpc] at hu
    obtain ⟨_, _, _, hfree⟩ := hu
    exact hfree

def idleTree : Sys Mem Pc := ⟨Mem.new fun _ => false, fun _ => .idle⟩

/-- A call of thread `u` that takes `n` accesses. -/
def whole (u : Nat) (op : Op) (n : Nat) : List (Act Op) :=
  .call u op :: List.replicate n (.run u)

/-- The first node of node id 7, an inner node. -/
def firstNode : Node := ⟨.first 7, 0, false⟩

/-- Thread 1 fills its cache and leaves; thread 0 replaces the node and retires it,
and after two rounds frees it. Thread 1 then joins and finds its cache cleared. -/
def calmReplace : List (Act Op) :=
  whole 1 .joinEpoch 2 ++ whole 1 (.getNode 7 false) 4 ++ whole 1 .leaveEpoch 2 ++
  whole 0 .joinEpoch 2 ++ whole 0 (.consolidate 7 firstNode) 3 ++ whole 0 .leaveEpoch 2 ++
  whole 2 .increaseEpoch 2 ++ whole 1 .joinEpoch 2 ++ whole 1 .leaveEpoch 2 ++
  whole 0 .joinEpoch 2 ++ whole 0 .leaveEpoch 2 ++
  whole 0 .performGC 21 ++ whole 1 .joinEpoch 2 ++ whole 1 (.getNode 7 false) 4

theorem calmReplace_run : ((machine 2).runUnder calm calmReplace idleTree).any fun s =>
      s.mem.freed = [.first 7] ∧ s.mem.held 1 = [⟨.made 0, 0, false⟩] := by
  decide +kernel

theorem cached_table_never_leads_to_freed_calmReplace :
    ∃ s : Sys Mem Pc, (machine 2).Reach calm fresh s ∧ s.mem.held 1 ≠ [] ∧ s.mem.freed ≠ [] ∧
      (∀ u, ∀ n ∈ s.mem.held u, n.chain ∉ s.mem.freed) ∧
      ∀ u id n, s.loc u = .inspect id n → n.chain ∉ s.mem.freed := by
  obtain ⟨s, _, hreach, hfreed, hheld⟩ :=
    Machine.reach_of_any fresh ⟨⟨_, rfl⟩, fun _ => rfl⟩ calmReplace_run
  refine ⟨s, hreach, ?_, ?_, cached_table_never_leads_to_freed hreach⟩
  · rw [hheld]
    nofun
  · rw [hfreed]
    nofun

/-- Thread 1 fills its cache and leaves, and thread 0 replaces and retires the
node. After a round thread 1 joins again and gets the retired node from the
cache; its epoch does not keep it from being freed. -/
def staleCache : List (Act Op) :=
  whole 1 .joinEpoch 2 ++ whole 1 (.getNode 7 false) 4 ++ whole 1 .leaveEpoch 2 ++
  whole 0 .joinEpoch 2 ++ whole 0 (.consolidate 7 firstNode) 3 ++ whole 0 .leaveEpoch 2 ++
  whole 2 .increaseEpoch 2 ++ whole 0 .joinEpoch 2 ++ whole 0 .leaveEpoch 2 ++
  whole 1 .joinEpoch 2 ++ whole 1 (.getNode 7 false) 2 ++ whole 0 .performGC 21

theorem staleCache_run : ((machine 2).runUnder Machine.free staleCache idleTree).any fun s =>
      s.mem.freed = [.first 7] ∧ s.mem.held 1 = [firstNode] := by
  decide +kernel

/-- A node is freed while the operation that got it from `GetNode` is open. -/
theorem cached_table_leads_to_freed : ∃ s : Sys Mem Pc, (machine 2).Reach Machine.free fresh s ∧
      ∃ u, ∃ n ∈ s.mem.held u, n.chain ∈ s.mem.freed := by
  obtain ⟨s, _, hreach, hfreed, hheld⟩ :=
    Machine.reach_of_any fresh ⟨⟨_, rfl⟩, fun _ => rfl⟩ staleCache_run
  refine ⟨s, hreach, 1, firstNode, ?_, ?_⟩
  · rw [hheld]
    exact List.mem_singleton.mpr rfl
  · rw [hfreed]
    exact List.mem_singleton.mpr rfl

end ShmPcc.BwTreeCache
