import ShmPcc.Ref.BwTreeRoot

/-!
# When root reads are fresh

An installer returns after it has seen the replicated pointer equal to a node
that was loaded from `mapping_table` after its own CAS. If the pointer only ever
moves forward in the order of installation, every later read of it is at least as
new, and reads that fall back to `mapping_table` are the newest of all.

The pointer moves backward when an installer loads its desired node, is overtaken
by a newer installer that publishes and returns, and then loads the newer node as
the current one: its `cas_ptr` replaces the newer node by the older. `orderly`
rules out that an installer finds a node in the pointer that was installed after
the node it wants to publish. It also keeps `global_root_id`: there are no calls
of `InstallRootNode`.
-/

namespace ShmPcc.BwTreeRoot

open Function

variable {threadNum r : Nat}

/-- The restriction. -/
def orderly (s : Sys Mem Pc) : Act Op → Prop
  | .call _ (.installRootNode _ _) => False
  | .call _ _ => True
  | .run u =>
    match s.loc u with
    | .currentLoad _ nodeId desired =>
      (s.mem.installed nodeId).idxOf s.mem.rootPtr ≤ (s.mem.installed nodeId).idxOf desired
    | _ => True

instance (s : Sys Mem Pc) (a : Act Op) : Decidable (orderly s a) := by
  unfold orderly
  split
  · infer_instance
  · infer_instance
  · split <;> infer_instance

/-! ## The invariant -/

/-- The node has been tried to install. -/
def Settled (n : Node) (m : Mem) : Prop := ∀ i, n = .made i → m.made.Settled i

/-- `n` is installed under `id`, at `k` or later. -/
def Since (id k : Nat) (n : Node) (m : Mem) : Prop :=
  ∃ i, k ≤ i ∧ (m.installed id)[i]? = some n

structure Inv (r : Nat) (m : Mem) : Prop where
  root : m.globalRootId = r
  nodup : ∀ id, (m.installed id).Nodup
  settled : ∀ id, ∀ n ∈ m.installed id, Settled n m
  last : ∀ id, (m.installed id).getLast? = some (m.mappingTable id)
  returned : ∀ id, m.returned id < (m.installed id).length
  /-- The pointer is as new as every install that has returned. -/
  published : Since r (m.returned r) m.rootPtr m
  answers : ∀ a ∈ m.answers, a.nodeId = r → Since r a.floor a.node m

/-- A publisher of the root that installed at `place`. -/
def Publisher (r : Nat) (after : After) (id : Nat) (m : Mem) : Prop :=
  id = r ∧ ∃ place, after = .node place ∧ place < (m.installed r).length

/-- What thread `u` knows where it stands. -/
def Pc.At (r u : Nat) : Pc → Mem → Prop
  | .installCas _ node _, m => ∃ i, node = .made i ∧ m.made.HeldBy u i
  | .rootCheck id place, m => place < (m.installed id).length
  | .catchUp after id, m | .desiredLoad after id, m => Publisher r after id m
  | .currentLoad after id desired, m =>
    Publisher r after id m ∧ ∀ place, after = .node place → Since r place desired m
  | .casPtr after id current desired, m =>
    (Publisher r after id m ∧ ∀ place, after = .node place → Since r place desired m) ∧
      ∃ i, (m.installed r)[i]? = some current ∧ Since r i desired m
  | .rootCas _ _, _ | .rootReload, _ | .rootAdopt _, _ | .rootStore _ _, _ => False
  | .getCached id floor, m | .getGlobal id floor, m | .getTable id floor, m =>
    floor ≤ m.returned id
  | .getPtr id floor, m => id = r ∧ floor ≤ m.returned id
  | .recheckCached id floor ptr, m | .recheckGlobal id floor ptr, m =>
    floor ≤ m.returned id ∧ (id = r → Since r floor ptr m)
  | .idle, _ => True

/-! ## What one access does -/

/-- The changes thread `u` makes, with what it knows then. -/
inductive Move (r u : Nat) (m : Mem) : Mem → Prop where
  | quiet : Move r u m m
  | make : Move r u m { m with made := m.made.draw u }
  | giveUp {i : Nat} (hu : m.made.HeldBy u i) : Move r u m { m with made := m.made.settle i }
  | install {id i : Nat} (hu : m.made.HeldBy u i) : Move r u m { m with
        made := m.made.settle i
        mappingTable := update m.mappingTable id (.made i)
        installed := update m.installed id (m.installed id ++ [.made i]) }
  | publish {i j : Nat} {n : Node} (hcur : (m.installed r)[i]? = some m.rootPtr)
      (hle : i ≤ j) (hn : (m.installed r)[j]? = some n) : Move r u m { m with rootPtr := n }
  | return {id place : Nat} (hlt : place < (m.installed id).length)
      (hpub : id = r → Since r place m.rootPtr m) : Move r u m (m.returnTrue id place)
  | answer {id floor : Nat} {n : Node} (hn : id = r → Since r floor n m) :
      Move r u m (m.answer id floor n)

variable {m m' : Mem} {u w : Nat}

variable {id : Nat} {n : Node}

theorem Since.mono {k k' : Nat} (h : Since id k n m) (hk : k' ≤ k) : Since id k' n m := by
  obtain ⟨i, hi, hn⟩ := h
  exact ⟨i, hk.trans hi, hn⟩

theorem getElem?_install {f : Nat → List Node} {j i : Nat} {n' : Node} (h : (f j)[i]? = some n) :
    (update f id (f id ++ [n']) j)[i]? = some n := by
  by_cases hj : j = id
  · rw [hj] at h ⊢
    rw [update_self]
    exact Outline.getElem?_snoc h
  · rw [update_of_ne hj]
    exact h

theorem Move.installed {i : Nat} (h : Move r u m m') (hn : (m.installed id)[i]? = some n) :
    (m'.installed id)[i]? = some n := by
  cases h with
  | install hu => exact getElem?_install hn
  | _ => exact hn

theorem Move.length_le (h : Move r u m m') (id : Nat) :
    (m.installed id).length ≤ (m'.installed id).length := by
  cases h with
  | @install id' i hu =>
    dsimp only
    rw [update_apply]
    split
    · next hid =>
      rw [hid, List.length_append]
      exact Nat.le_add_right ..
    · rfl
  | _ => exact Nat.le_refl _

theorem Since.move {k : Nat} (hs : Since id k n m) (h : Move r u m m') : Since id k n m' := by
  obtain ⟨i, hi, hn⟩ := hs
  exact ⟨i, hi, h.installed hn⟩

theorem Move.returned_le (h : Move r u m m') (id : Nat) : m.returned id ≤ m'.returned id := by
  cases h with
  | @«return» id' place hlt hpub =>
    dsimp only [Mem.returnTrue]
    rw [update_apply]
    split
    · next hid =>
      rw [hid]
      exact Nat.le_max_left ..
    · rfl
  | _ => exact Nat.le_refl _

theorem Move.made (h : Move r u m m') : m.made.Step u m'.made := by
  cases h with
  | make => exact .draw
  | giveUp hu => exact .settle hu
  | install hu => exact .settle hu
  | _ => exact .stay

theorem Settled.move (hn : Settled n m) (h : Move r u m m') : Settled n m' :=
  fun i hi => (hn i hi).step h.made

theorem Inv.since_table {k : Nat} (hi : Inv r m) (hk : k < (m.installed id).length) :
    Since id k (m.mappingTable id) m := by
  have hlast := hi.last id
  rw [List.getLast?_eq_getElem?] at hlast
  exact ⟨_, by omega, hlast⟩

theorem Inv.place_unique {i j : Nat} (hi : Inv r m) (h : (m.installed id)[i]? = some n)
    (h' : (m.installed id)[j]? = some n) : i = j := by
  obtain ⟨hlt, hn⟩ := List.getElem?_eq_some_iff.mp h
  obtain ⟨hlt', hn'⟩ := List.getElem?_eq_some_iff.mp h'
  exact (List.Nodup.getElem_inj_iff (hi.nodup id)).mp (hn.trans hn'.symm)

theorem Inv.install {i : Nat} (hi : Inv r m) (hu : m.made.HeldBy u i) : Inv r { m with
      made := m.made.settle i
      mappingTable := update m.mappingTable id (.made i)
      installed := update m.installed id (m.installed id ++ [.made i]) } := by
  have hmove : Move r u m { m with
      made := m.made.settle i
      mappingTable := update m.mappingTable id (.made i)
      installed := update m.installed id (m.installed id ++ [.made i]) } := .install hu
  refine { hi with
    nodup := fun j => ?_, settled := fun j n hn => ?_, last := fun j => ?_
    returned := fun j => Nat.lt_of_lt_of_le (hi.returned j) (hmove.length_le j)
    published := hi.published.move hmove
    answers := fun a ha hr => (hi.answers a ha hr).move hmove }
  · dsimp only
    by_cases hj : j = id
    · -- the new node is in its maker's hands, the old ones are not
      rw [hj, update_self]
      refine List.nodup_append.mpr ⟨hi.nodup id, List.nodup_singleton _, fun n hn n' hn' heq => ?_⟩
      rw [List.mem_singleton.mp hn'] at heq
      exact (hi.settled id n hn i heq).ne hu rfl
    · rw [update_of_ne hj]
      exact hi.nodup j
  · have hnew : n ∈ m.installed j ∨ n = .made i := by
      dsimp only at hn
      rw [update_apply] at hn
      split at hn
      · next hj =>
        rcases List.mem_append.mp hn with hn | hn
        · exact .inl (hj ▸ hn)
        · exact .inr (List.mem_singleton.mp hn)
      · exact .inl hn
    rcases hnew with hn | rfl
    · exact (hi.settled j n hn).move hmove
    · intro i' hi'
      cases hi'
      exact hu.settle
  · dsimp only
    by_cases hj : j = id
    · rw [hj, update_self, update_self, List.getLast?_concat]
    · rw [update_of_ne hj, update_of_ne hj]
      exact hi.last j

theorem Inv.return {place : Nat} (hi : Inv r m) (hlt : place < (m.installed id).length)
    (hpub : id = r → Since r place m.rootPtr m) : Inv r (m.returnTrue id place) := by
  refine { hi with returned := fun j => ?_, published := ?_ }
  · dsimp only [Mem.returnTrue]
    rw [update_apply]
    split
    · next hj =>
      rw [hj]
      exact Nat.max_lt.mpr ⟨hi.returned id, hlt⟩
    · exact hi.returned j
  · dsimp only [Mem.returnTrue]
    by_cases hr : r = id
    · obtain ⟨i, hle, hn⟩ := hi.published
      obtain ⟨i', hle', hn'⟩ := hpub hr.symm
      cases hi.place_unique hn hn'
      rw [← hr, update_self]
      exact ⟨i, Nat.max_le.mpr ⟨hle, hle'⟩, hn⟩
    · rw [update_of_ne hr]
      exact hi.published

theorem Move.inv (hi : Inv r m) (h : Move r u m m') : Inv r m' := by
  have hset := fun id n hn => (hi.settled id n hn).move h
  cases h with
  | quiet => exact hi
  | make | giveUp hu => exact { hi with settled := hset }
  | install hu => exact hi.install hu
  | @publish i j n hcur hle hn =>
    refine { hi with published := ?_ }
    obtain ⟨i', hle', hn'⟩ := hi.published
    cases hi.place_unique hcur hn'
    exact ⟨j, hle'.trans hle, hn⟩
  | «return» hlt hpub => exact hi.return hlt hpub
  | @answer id floor n hn =>
    refine { hi with answers := fun a ha hr => ?_ }
    rcases List.mem_append.mp ha with ha | ha
    · exact hi.answers a ha hr
    · cases List.mem_singleton.mp ha
      exact hn hr

/-! ## What a thread knows survives the others -/

variable {after : After}

theorem Publisher.move (hp : Publisher r after id m) (h : Move r u m m') :
    Publisher r after id m' := by
  obtain ⟨hid, place, ha, hlt⟩ := hp
  exact ⟨hid, place, ha, Nat.lt_of_lt_of_le hlt (h.length_le r)⟩

theorem Pc.At.move {pc : Pc} (hw : w ≠ u) (hat : pc.At r w m) (h : Move r u m m') :
    pc.At r w m' := by
  have hfloor := h.returned_le
  cases pc with
  | idle => trivial
  | installCas id node prev =>
    obtain ⟨i, hn, hu⟩ := hat
    exact ⟨i, hn, hu.step hw h.made⟩
  | rootCheck id place => exact Nat.lt_of_lt_of_le hat (h.length_le id)
  | catchUp after id | desiredLoad after id => exact Publisher.move hat h
  | currentLoad after id desired =>
    exact ⟨hat.1.move h, fun place ha => (hat.2 place ha).move h⟩
  | casPtr after id current desired =>
    obtain ⟨⟨hp, hd⟩, i, hcur, hs⟩ := hat
    exact ⟨⟨hp.move h, fun place ha => (hd place ha).move h⟩, i, h.installed hcur, hs.move h⟩
  | rootCas o n | rootReload | rootAdopt t | rootStore n i => exact hat
  | getCached id floor | getGlobal id floor | getTable id floor => exact le_trans hat (hfloor id)
  | getPtr id floor => exact ⟨hat.1, le_trans hat.2 (hfloor id)⟩
  | recheckCached id floor ptr | recheckGlobal id floor ptr =>
    exact ⟨le_trans hat.1 (hfloor id), fun hr => (hat.2 hr).move h⟩

/-! ## Every access is one of these moves -/

variable {pc' : Pc}

theorem call_move {op : Op} {pc : Pc} (hop : ∀ o n, op ≠ .installRootNode o n)
    (hc : call u op pc m = some (pc', m')) : Move r u m m' ∧ pc'.At r u m' := by
  cases pc with
  | idle =>
    cases op with
    | installNodeToReplace id prev =>
      cases hc
      exact ⟨.make, m.made.count, rfl, Fresh.heldBy_draw⟩
    | installRootNode o n => exact absurd rfl (hop o n)
    | getNode id =>
      cases hc
      exact ⟨.quiet, Nat.le_refl _⟩
  | _ => cases hc

theorem installCas_move {node prev : Node} (hat : (Pc.installCas id node prev).At r u m)
    (hr : run threadNum u (.installCas id node prev) m = some (pc', m')) :
    Move r u m m' ∧ pc'.At r u m' := by
  obtain ⟨i, rfl, hu⟩ := hat
  simp only [run, Mem.settle] at hr
  split at hr
  · cases hr
    refine ⟨.install hu, ?_⟩
    show (m.installed id).length < (update m.installed id _ id).length
    rw [update_self, List.length_append]
    exact Nat.lt_succ_self _
  · cases hr
    exact ⟨.giveUp hu, trivial⟩

/-- A publisher that finds the pointer equal to the node it wants returns. -/
theorem caughtUp_move (hp : Publisher r after id m)
    (hs : ∀ place, after = .node place → Since r place m.rootPtr m) :
    Move r u m (caughtUp after id m).2 ∧ (caughtUp after id m).1.At r u (caughtUp after id m).2 := by
  obtain ⟨rfl, place, rfl, hlt⟩ := hp
  exact ⟨.return hlt fun _ => hs place rfl, trivial⟩

theorem currentLoad_move {desired : Node} (hi : Inv r m)
    (hat : (Pc.currentLoad after id desired).At r u m)
    (hord : (m.installed id).idxOf m.rootPtr ≤ (m.installed id).idxOf desired)
    (hr : run threadNum u (.currentLoad after id desired) m = some (pc', m')) :
    Move r u m m' ∧ pc'.At r u m' := by
  obtain ⟨hp, hs⟩ := hat
  simp only [run] at hr
  split at hr
  · next heq =>
    injection hr with hr
    have hfin := caughtUp_move (u := u) hp fun place ha => by
      rw [heq]
      exact hs place ha
    rw [hr] at hfin
    exact hfin
  · cases hr
    refine ⟨.quiet, ⟨hp, hs⟩, ?_⟩
    obtain ⟨hid, place, ha, _⟩ := hp
    rw [hid] at hord
    obtain ⟨j, _, hj⟩ := hs place ha
    obtain ⟨i, _, hcur⟩ := hi.published
    -- both nodes stand in the order where `idxOf` finds them
    obtain ⟨hi', hcur'⟩ := List.getElem?_eq_some_iff.mp hcur
    obtain ⟨hj', hdes'⟩ := List.getElem?_eq_some_iff.mp hj
    rw [← hcur', ← hdes', (hi.nodup r).idxOf_getElem, (hi.nodup r).idxOf_getElem] at hord
    exact ⟨i, hcur, j, hord, hj⟩

theorem run_move {pc : Pc} (hi : Inv r m) (hat : pc.At r u m)
    (hord : ∀ after id desired, pc = .currentLoad after id desired → (m.installed id).idxOf m.rootPtr ≤ (m.installed id).idxOf desired)
    (hr : run threadNum u pc m = some (pc', m')) : Move r u m m' ∧ pc'.At r u m' := by
  cases pc with
  | idle => cases hr
  | installCas id node prev => exact installCas_move hat hr
  | rootCheck id place =>
    simp only [run] at hr
    split at hr
    · next heq =>
      cases hr
      have hid := heq.trans hi.root
      refine ⟨.quiet, hid, place, rfl, ?_⟩
      rw [← hid]
      exact hat
    · next hne =>
      cases hr
      exact ⟨.return hat fun hid => absurd (hid.trans hi.root.symm) hne, trivial⟩
  | catchUp after id =>
    simp only [run] at hr
    split at hr
    · cases hr
      exact ⟨.quiet, hat⟩
    · next hne => exact absurd (hi.root.trans hat.1.symm) hne
  | desiredLoad after id =>
    cases hr
    refine ⟨.quiet, hat, fun place ha => ?_⟩
    obtain ⟨rfl, place', ha', hlt⟩ := hat
    cases ha.symm.trans ha'
    exact hi.since_table hlt
  | currentLoad after id desired => exact currentLoad_move hi hat (hord after id desired rfl) hr
  | casPtr after id current desired =>
    cases hr
    obtain ⟨⟨hp, hd⟩, i, hcur, j, hle, hj⟩ := hat
    split
    · next heq =>
      rw [← heq] at hcur
      have hmove : Move r u m { m with rootPtr := desired } := .publish hcur hle hj
      exact ⟨hmove, hp.move hmove⟩
    · exact ⟨.quiet, hp⟩
  | rootCas o n | rootReload | rootAdopt t | rootStore n i => exact hat.elim
  | getCached id floor =>
    simp only [run] at hr
    split at hr
    · cases hr
      exact ⟨.quiet, hat⟩
    · cases hr
      exact ⟨.quiet, hat⟩
  | getGlobal id floor =>
    simp only [run] at hr
    split at hr
    · next heq =>
      cases hr
      exact ⟨.quiet, heq.trans hi.root, hat⟩
    · cases hr
      exact ⟨.quiet, hat⟩
  | getPtr id floor =>
    cases hr
    obtain ⟨rfl, hle⟩ := hat
    exact ⟨.quiet, hle, fun _ => hi.published.mono hle⟩
  | recheckCached id floor ptr =>
    simp only [run] at hr
    split at hr
    · cases hr
      exact ⟨.quiet, hat⟩
    · cases hr
      exact ⟨.quiet, hat.1⟩
  | recheckGlobal id floor ptr =>
    simp only [run] at hr
    split at hr
    · cases hr
      exact ⟨.answer hat.2, trivial⟩
    · cases hr
      exact ⟨.quiet, hat.1⟩
  | getTable id floor =>
    cases hr
    refine ⟨.answer fun hid => ?_, trivial⟩
    subst hid
    exact hi.since_table (Nat.lt_of_le_of_lt hat (hi.returned id))

theorem Inv.new (r : Nat) : Inv r (Mem.new r) where
  root := rfl
  nodup _ := List.nodup_singleton _
  settled _ n hn i hi := by
    cases (List.mem_singleton.mp hn).symm.trans hi
  last _ := rfl
  returned _ := Nat.zero_lt_one
  published := ⟨0, Nat.le_refl _, rfl⟩
  answers := nofun

theorem holds_of_reach {s : Sys Mem Pc} (h : (machine threadNum).Reach orderly (fresh r) s) :
    Machine.Holds (Inv r) (fun u pc m => pc.At r u m) s := by
  refine h.invariant ?_ ?_
  · intro s hs
    obtain ⟨hm, hl⟩ := hs
    refine ⟨hm ▸ Inv.new r, fun u => ?_⟩
    rw [hl u]
    trivial
  · intro s a pc m' hs hord hact
    have hmove : Move r a.thread s.mem m' ∧ pc.At r a.thread m' := by
      cases a with
      | call u op =>
        refine call_move ?_ hact
        rintro o n rfl
        exact hord
      | run u =>
        refine run_move hs.1 (hs.2 u) (fun after id desired hpc => ?_) hact
        simp only [orderly, hpc] at hord
        exact hord
    exact ⟨hmove.1.inv hs.1, hmove.2, fun u hu => (hs.2 u).move hu hmove.1⟩

/-! ## The claim -/

/-- In every orderly run, a `GetNode` of the root returns a node that was installed
at or after the last one whose `InstallNodeToReplace` had returned true when the
`GetNode` was called. -/
theorem root_read_is_fresh {s : Sys Mem Pc} (h : (machine threadNum).Reach orderly (fresh r) s) :
    ∀ a ∈ s.mem.answers, a.nodeId = r →
      ∃ i, a.floor ≤ i ∧ (s.mem.installed r)[i]? = some a.node :=
  (holds_of_reach h).1.answers

def idleTree (r : Nat) : Sys Mem Pc := ⟨Mem.new r, fun _ => .idle⟩

/-- A call of thread `u` that takes `n` accesses. -/
def whole (u : Nat) (op : Op) (n : Nat) : List (Act Op) :=
  .call u op :: List.replicate n (.run u)

/-- Two installs on the root that overlap, with a read after each return. -/
def orderlyInstalls : List (Act Op) :=
  Act.call 0 (Op.installNodeToReplace 5 (.first 5)) :: List.replicate 3 (Act.run 0) ++
  Act.call 1 (Op.installNodeToReplace 5 (.made 0)) :: List.replicate 9 (Act.run 1) ++
  whole 2 (.getNode 5) 5 ++ List.replicate 2 (Act.run 0) ++ whole 2 (.getNode 5) 5

theorem orderlyInstalls_run :
    ((machine 3).runUnder orderly orderlyInstalls (idleTree 5)).any fun s =>
      s.mem.answers = [⟨5, .made 1, 2⟩, ⟨5, .made 1, 2⟩] := by
  decide +kernel

theorem root_read_is_fresh_orderlyInstalls :
    ∃ s : Sys Mem Pc, (machine 3).Reach orderly (fresh 5) s ∧ s.mem.answers ≠ [] ∧
      ∀ a ∈ s.mem.answers, a.nodeId = 5 →
        ∃ i, a.floor ≤ i ∧ (s.mem.installed 5)[i]? = some a.node := by
  obtain ⟨s, _, hreach, h⟩ := Machine.reach_of_any (fresh 5) ⟨rfl, fun _ => rfl⟩ orderlyInstalls_run
  refine ⟨s, hreach, ?_, root_read_is_fresh hreach⟩
  rw [h]
  nofun

/-- Thread 0 installs its node and loads it as desired; thread 1 installs a newer
one, publishes it and returns; thread 0 then takes the newer node for the current
one and replaces it. -/
def overtaken : List (Act Op) :=
  Act.call 0 (Op.installNodeToReplace 5 (.first 5)) :: List.replicate 4 (Act.run 0) ++
  Act.call 1 (Op.installNodeToReplace 5 (.made 0)) :: List.replicate 9 (Act.run 1) ++
  List.replicate 2 (Act.run 0) ++ whole 2 (.getNode 5) 5

theorem overtaken_run : ((machine 3).runUnder Machine.free overtaken (idleTree 5)).any fun s =>
      s.mem.globalRootId = 5 ∧ s.mem.answers = [⟨5, .made 0, 2⟩] ∧
        s.mem.installed 5 = [.first 5, .made 0, .made 1] := by
  decide +kernel

/-- A `GetNode` of the root returns a node that was replaced by one whose
`InstallNodeToReplace` had returned true before. -/
theorem root_read_is_stale :
    ∃ s : Sys Mem Pc, (machine 3).Reach Machine.free (fresh 5) s ∧ s.mem.globalRootId = 5 ∧
      ∃ a ∈ s.mem.answers, a.nodeId = 5 ∧
        ∀ i, a.floor ≤ i → (s.mem.installed 5)[i]? ≠ some a.node := by
  obtain ⟨s, _, hreach, hroot, hans, hinst⟩ :=
    Machine.reach_of_any (fresh 5) ⟨rfl, fun _ => rfl⟩ overtaken_run
  refine ⟨s, hreach, hroot, ⟨5, .made 0, 2⟩, ?_, rfl, ?_⟩
  · rw [hans]
    exact List.mem_singleton.mpr rfl
  · intro i hle
    rw [hinst]
    dsimp only at hle
    rcases Nat.lt_or_ge i 3 with hlt | hge
    · cases (by omega : i = 2)
      decide
    · rw [List.getElem?_eq_none hge]
      nofun

end ShmPcc.BwTreeRoot
