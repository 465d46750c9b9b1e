import ShmPcc.Proofs.BwTreeRootRead

/-!
# When the root agrees at rest

Whenever the replicated pointer is not the head of the root's entry, some thread
is on its way to repair it: it has changed the entry or the root id and not begun
to publish, or it is in the loop of `CatchUpRootPointer` and cannot leave it
before the two agree. In the same way, when a `cached_root_id` is not the root id,
the thread that installed the root id has still to store it there. At rest there
are no such threads.

A publisher of a former root can break the first with a `cas_ptr` after the root
has changed, since it then leaves the loop; a store of a root id that is no more
the root id breaks the second. `current` rules out both.
-/

namespace ShmPcc.BwTreeRoot

open Function

variable {threadNum r : Nat}

/-- The restriction: what is published belongs to the present root id. -/
def current (threadNum : Nat) (s : Sys Mem Pc) : Act Op → Prop
  | .call _ _ => True
  | .run u =>
    match s.loc u with
    | .casPtr _ nodeId _ _ => s.mem.globalRootId = nodeId
    | .rootAdopt tmpRootId => s.mem.globalRootId = tmpRootId
    | .rootStore newRootId i => i < threadNum → s.mem.globalRootId = newRootId
    | _ => True

def decideCurrent (threadNum : Nat) (m : Mem) (loc : Nat → Pc) :
    (a : Act Op) → Decidable (current threadNum ⟨m, loc⟩ a)
  | .call _ _ => inferInstanceAs (Decidable True)
  | .run u => by
    unfold current
    dsimp only
    split <;> infer_instance

instance (s : Sys Mem Pc) (a : Act Op) : Decidable (current threadNum s a) :=
  decideCurrent threadNum s.mem s.loc a

/-! ## Who repairs what -/

/-- The head of the root's entry. -/
def Mem.root (m : Mem) : Node := m.mappingTable m.globalRootId

/-- A thread that cannot finish before it has seen the pointer at `n`, the head of
the entry of root id `g`. -/
def Repairs (g : Nat) (n : Node) : Pc → Prop
  | .rootCheck id _ | .catchUp _ id | .desiredLoad _ id | .casPtr _ id _ _ => id = g
  | .currentLoad _ id desired => id = g ∧ desired = n
  | _ => False

/-- A thread that has still to store root id `g` for thread `i`. -/
def Tells (g i : Nat) : Pc → Prop
  | .catchUp .root id | .desiredLoad .root id | .currentLoad .root id _ | .casPtr .root id _ _ =>
    id = g
  | .rootStore id j => id = g ∧ j ≤ i
  | _ => False

/-- Where pointer and ids do not agree with the root, somebody is at work. -/
structure Attended (threadNum : Nat) (s : Sys Mem Pc) : Prop where
  pointer : s.mem.rootPtr = s.mem.root ∨
    ∃ w, Repairs s.mem.globalRootId s.mem.root (s.loc w)
  ids : ∀ i, i < threadNum → s.mem.cachedRootId i = s.mem.globalRootId ∨
    ∃ w, Tells s.mem.globalRootId i (s.loc w)

theorem Repairs.installing {g : Nat} {n : Node} {pc : Pc} (h : Repairs g n pc) :
    pc.installing = true := by
  cases pc <;> first | rfl | exact h.elim

theorem Tells.installing {g i : Nat} {pc : Pc} (h : Tells g i pc) : pc.installing = true := by
  cases pc <;> first | rfl | exact h.elim

/-! ## One access -/

variable {m m' : Mem} {u : Nat} {pc pc' : Pc}

/-- The pointer after an access of `u`: what changes the root makes `u` a repairer,
and neither agreement nor `u`'s own repair is lost without the other. -/
def KeepsPointer (m : Mem) (pc : Pc) (m' : Mem) (pc' : Pc) : Prop :=
  (m'.globalRootId = m.globalRootId ∧ m'.root = m.root ∨ Repairs m'.globalRootId m'.root pc') ∧
  (m.rootPtr = m.root ∨ Repairs m.globalRootId m.root pc →
    m'.rootPtr = m'.root ∨ Repairs m'.globalRootId m'.root pc')

theorem KeepsPointer.of_repairs (h : Repairs m'.globalRootId m'.root pc') :
    KeepsPointer m pc m' pc' :=
  ⟨.inr h, fun _ => .inr h⟩

theorem KeepsPointer.of_same (hg : m'.globalRootId = m.globalRootId)
    (ht : m'.mappingTable = m.mappingTable) (hp : m'.rootPtr = m.rootPtr)
    (h : Repairs m.globalRootId m.root pc → m.rootPtr = m.root ∨ Repairs m.globalRootId m.root pc') :
    KeepsPointer m pc m' pc' := by
  have hroot : m'.root = m.root := by rw [Mem.root, Mem.root, hg, ht]
  refine ⟨.inl ⟨hg, hroot⟩, fun hold => ?_⟩
  rw [hg, hroot, hp]
  exact hold.elim .inl h

theorem caughtUp_mem (after : After) (id : Nat) (m : Mem) :
    (caughtUp after id m).2.globalRootId = m.globalRootId ∧
      (caughtUp after id m).2.mappingTable = m.mappingTable ∧
      (caughtUp after id m).2.rootPtr = m.rootPtr ∧
      (caughtUp after id m).2.cachedRootId = m.cachedRootId := by
  cases after <;> exact ⟨rfl, rfl, rfl, rfl⟩

theorem settle_mem (m : Mem) (n : Node) :
    (m.settle n).globalRootId = m.globalRootId ∧ (m.settle n).mappingTable = m.mappingTable ∧
      (m.settle n).rootPtr = m.rootPtr ∧ (m.settle n).cachedRootId = m.cachedRootId := by
  cases n <;> exact ⟨rfl, rfl, rfl, rfl⟩

theorem installCas_keepsPointer {id : Nat} {node prev : Node}
    (hr : run threadNum u (.installCas id node prev) m = some (pc', m')) :
    KeepsPointer m (.installCas id node prev) m' pc' := by
  obtain ⟨hg, ht, hp, _⟩ := settle_mem m node
  simp only [run] at hr
  split at hr
  · cases hr
    by_cases hid : id = m.globalRootId
    · exact .of_repairs (hid.trans hg.symm)
    · have hroot : update m.mappingTable id node (m.settle node).globalRootId = m.root := by
        rw [hg, update_of_ne (Ne.symm hid)]
        rfl
      refine ⟨.inl ⟨hg, hroot⟩, fun hold => .inl ?_⟩
      exact (hp.trans (hold.resolve_right False.elim)).trans hroot.symm
  · cases hr
    exact .of_same hg ht hp False.elim

theorem run_keepsPointer
    (hcas : ∀ after id cur des, pc = .casPtr after id cur des → m.globalRootId = id)
    (hr : run threadNum u pc m = some (pc', m')) : KeepsPointer m pc m' pc' := by
  cases pc with
  | idle => cases hr
  | installCas id node prev => exact installCas_keepsPointer hr
  | rootCheck id place =>
    simp only [run] at hr
    split at hr
    · cases hr
      exact .of_same rfl rfl rfl .inr
    · next hne =>
      cases hr
      exact .of_same rfl rfl rfl fun hid => absurd hid hne
  | catchUp after id =>
    simp only [run] at hr
    split at hr
    · cases hr
      exact .of_same rfl rfl rfl .inr
    · next hne =>
      obtain ⟨hg, ht, hp, _⟩ := caughtUp_mem after id m
      injection hr with hr
      rw [hr] at hg ht hp
      exact .of_same hg ht hp fun hid => absurd hid.symm hne
  | desiredLoad after id =>
    cases hr
    refine .of_same rfl rfl rfl fun hid => .inr ⟨hid, ?_⟩
    rw [show id = m.globalRootId from hid]
    rfl
  | currentLoad after id desired =>
    simp only [run] at hr
    split at hr
    · next heq =>
      obtain ⟨hg, ht, hp, _⟩ := caughtUp_mem after id m
      injection hr with hr
      rw [hr] at hg ht hp
      exact .of_same hg ht hp fun hrep => .inl (heq.trans hrep.2)
    · cases hr
      exact .of_same rfl rfl rfl fun hrep => .inr hrep.1
  | casPtr after id current desired =>
    have hid := hcas after id current desired rfl
    cases hr
    refine .of_repairs ?_
    split <;> exact hid.symm
  | rootCas o n =>
    simp only [run] at hr
    split at hr
    · cases hr
      exact .of_repairs rfl
    · cases hr
      exact .of_same rfl rfl rfl False.elim
  | rootReload | rootAdopt t | getPtr id floor | getTable id floor =>
    cases hr
    exact .of_same rfl rfl rfl False.elim
  | rootStore id j | getCached id floor | getGlobal id floor | recheckCached id floor ptr
  | recheckGlobal id floor ptr =>
    simp only [run] at hr
    split at hr <;> cases hr <;> exact .of_same rfl rfl rfl False.elim

/-- The same for the copy of the root id of thread `i`. -/
def KeepsId (i : Nat) (m : Mem) (pc : Pc) (m' : Mem) (pc' : Pc) : Prop :=
  (m'.globalRootId = m.globalRootId ∨ Tells m'.globalRootId i pc') ∧
  (m.cachedRootId i = m.globalRootId ∨ Tells m.globalRootId i pc →
    m'.cachedRootId i = m'.globalRootId ∨ Tells m'.globalRootId i pc')

theorem KeepsId.of_same {i : Nat} (hg : m'.globalRootId = m.globalRootId)
    (hc : m'.cachedRootId = m.cachedRootId)
    (h : Tells m.globalRootId i pc → Tells m.globalRootId i pc') : KeepsId i m pc m' pc' := by
  refine ⟨.inl hg, fun hold => ?_⟩
  rw [hg, hc]
  exact hold.imp id h

theorem tells_caughtUp (g i id : Nat) (after : After) (m : Mem)
    (h : Tells g i (.catchUp after id)) : Tells g i (caughtUp after id m).1 := by
  cases after with
  | node place => exact h.elim
  | root => exact ⟨h, Nat.zero_le _⟩

theorem run_keepsId {i : Nat} (hi : i < threadNum)
    (hadopt : ∀ t, pc = .rootAdopt t → m.globalRootId = t)
    (hstore : ∀ id j, pc = .rootStore id j → j < threadNum → m.globalRootId = id)
    (hr : run threadNum u pc m = some (pc', m')) : KeepsId i m pc m' pc' := by
  cases pc with
  | idle => cases hr
  | installCas id node prev =>
    obtain ⟨hg, _, _, hc⟩ := settle_mem m node
    simp only [run] at hr
    split at hr <;> cases hr <;> exact .of_same hg hc False.elim
  | rootCheck id place =>
    simp only [run] at hr
    split at hr <;> cases hr <;> exact .of_same rfl rfl False.elim
  | catchUp after id =>
    simp only [run] at hr
    split at hr
    · cases hr
      refine .of_same rfl rfl fun htell => ?_
      cases after <;> exact htell
    · obtain ⟨hg, _, _, hc⟩ := caughtUp_mem after id m
      injection hr with hr
      have htell := tells_caughtUp m.globalRootId i id after m
      rw [hr] at hg hc htell
      exact .of_same hg hc htell
  | desiredLoad after id =>
    cases hr
    refine .of_same rfl rfl fun htell => ?_
    cases after <;> exact htell
  | currentLoad after id desired =>
    simp only [run] at hr
    split at hr
    · obtain ⟨hg, _, _, hc⟩ := caughtUp_mem after id m
      injection hr with hr
      have htell := tells_caughtUp m.globalRootId i id after m
      rw [hr] at hg hc htell
      refine .of_same hg hc fun h => htell ?_
      cases after <;> exact h
    · cases hr
      refine .of_same rfl rfl fun htell => ?_
      cases after <;> exact htell
  | casPtr after id current desired =>
    cases hr
    refine .of_same ?_ ?_ fun htell => ?_
    · split <;> rfl
    · split <;> rfl
    · cases after <;> exact htell
  | rootCas o n =>
    simp only [run] at hr
    split at hr
    · cases hr
      exact ⟨.inr rfl, fun _ => .inr rfl⟩
    · cases hr
      exact .of_same rfl rfl False.elim
  | rootAdopt t =>
    have ht := hadopt t rfl
    cases hr
    refine ⟨.inl rfl, fun hold => .inl ?_⟩
    have hc := hold.resolve_right False.elim
    dsimp only
    rw [update_apply]
    split
    · rw [ht]
    · exact hc
  | rootStore id j =>
    simp only [run] at hr
    split at hr
    · next hj =>
      have hid := hstore id j rfl hj
      cases hr
      refine ⟨.inl rfl, fun hold => ?_⟩
      dsimp only
      rw [update_apply]
      split
      · exact .inl hid.symm
      · exact hold.imp_right fun htell => ⟨htell.1, by have := htell.2; omega⟩
    · next hj =>
      cases hr
      refine .of_same rfl rfl fun htell => ?_
      have := htell.2
      omega
  | rootReload | getPtr id floor | getTable id floor =>
    cases hr
    exact .of_same rfl rfl False.elim
  | getCached id floor | getGlobal id floor | recheckCached id floor ptr
  | recheckGlobal id floor ptr =>
    simp only [run] at hr
    split at hr <;> cases hr <;> exact .of_same rfl rfl False.elim

/-! ## Runs -/

theorem call_keeps {op : Op} {i : Nat} (hc : call u op pc m = some (pc', m')) :
    KeepsPointer m pc m' pc' ∧ KeepsId i m pc m' pc' := by
  cases pc with
  | idle => cases op <;> cases hc <;> exact ⟨.of_same rfl rfl rfl False.elim, .of_same rfl rfl False.elim⟩
  | _ => cases hc

variable {s : Sys Mem Pc}

theorem Attended.step (hs : Attended threadNum s) (hp : KeepsPointer s.mem (s.loc u) m' pc')
    (hi : ∀ i, i < threadNum → KeepsId i s.mem (s.loc u) m' pc') :
    Attended threadNum ⟨m', update s.loc u pc'⟩ := by
  have hself : ∀ {P : Pc → Prop}, P pc' → ∃ w, P (update s.loc u pc' w) := by
    intro P h
    refine ⟨u, ?_⟩
    rw [update_self]
    exact h
  refine ⟨?_, fun i hlt => ?_⟩
  · obtain ⟨hroot, hkeep⟩ := hp
    rcases hs.pointer with hagree | ⟨w, hw⟩
    · exact (hkeep (.inl hagree)).imp_right hself
    · by_cases hwu : w = u
      · rw [hwu] at hw
        exact (hkeep (.inr hw)).imp_right hself
      · rcases hroot with ⟨hg, hn⟩ | hrep
        · refine .inr ⟨w, ?_⟩
          dsimp only
          rw [update_of_ne hwu, hg, hn]
          exact hw
        · exact .inr (hself hrep)
  · obtain ⟨hroot, hkeep⟩ := hi i hlt
    rcases hs.ids i hlt with hagree | ⟨w, hw⟩
    · exact (hkeep (.inl hagree)).imp_right hself
    · by_cases hwu : w = u
      · rw [hwu] at hw
        exact (hkeep (.inr hw)).imp_right hself
      · rcases hroot with hg | htell
        · refine .inr ⟨w, ?_⟩
          dsimp only
          rw [update_of_ne hwu, hg]
          exact hw
        · exact .inr (hself htell)

theorem attended_of_reach (h : (machine threadNum).Reach (current threadNum) (fresh r) s) :
    Attended threadNum s := by
  induction h with
  | init hs =>
    obtain ⟨hm, _⟩ := hs
    refine ⟨.inl ?_, fun i _ => .inl ?_⟩ <;> rw [hm] <;> rfl
  | @step s s' a _ ha hs ih =>
    obtain ⟨⟨pc', m'⟩, hact, rfl⟩ := Option.map_eq_some_iff.mp hs
    cases a with
    | call u op => exact ih.step (call_keeps (i := 0) hact).1 fun i _ => (call_keeps hact).2
    | run u =>
      refine ih.step (u := u) (run_keepsPointer ?_ hact) fun i hi => run_keepsId hi ?_ ?_ hact
      · intro after id cur des hpc
        simp only [current, hpc] at ha
        exact ha
      · intro t hpc
        simp only [current, hpc] at ha
        exact ha
      · intro id j hpc
        simp only [current, hpc] at ha
        exact ha

/-- A `GetNode` of the root that runs alone, where the id of its thread is the root
id, returns what the pointer holds. -/
theorem getNode_alone (hidle : s.loc u = .idle) (hid : s.mem.cachedRootId u = s.mem.globalRootId) :
    ∃ s', (machine threadNum).runUnder Machine.free (whole u (.getNode s.mem.globalRootId) 5) s =
        some s' ∧
      s'.mem = s.mem.answer s.mem.globalRootId (s.mem.returned s.mem.globalRootId) s.mem.rootPtr := by
  simp [whole, List.replicate, Machine.runUnder, Machine.free, Machine.step, Machine.act, machine,
    Act.thread, call, run, hidle, hid]

/-! ## The claim -/

/-- In every run that publishes only for the present root id, when no install is in
progress the replicated pointer is the head of the root's entry, every thread's
copy of the root id is the root id, and a `GetNode` of the root returns the
head. -/
theorem root_agrees_at_rest {s : Sys Mem Pc}
    (h : (machine threadNum).Reach (current threadNum) (fresh r) s)
    (hrest : ∀ u, (s.loc u).installing = false) :
    s.mem.rootPtr = s.mem.mappingTable s.mem.globalRootId ∧
      (∀ i, i < threadNum → s.mem.cachedRootId i = s.mem.globalRootId) ∧
      ∀ u, u < threadNum → s.loc u = .idle → ∃ s',
        (machine threadNum).runUnder Machine.free (whole u (.getNode s.mem.globalRootId) 5) s =
          some s' ∧
        s'.mem = s.mem.answer s.mem.globalRootId (s.mem.returned s.mem.globalRootId)
          (s.mem.mappingTable s.mem.globalRootId) := by
  have hat := attended_of_reach h
  have hptr : s.mem.rootPtr = s.mem.mappingTable s.mem.globalRootId := by
    rcases hat.pointer with hagree | ⟨w, hw⟩
    · exact hagree
    · have := hw.installing
      rw [hrest w] at this
      cases this
  have hids : ∀ i, i < threadNum → s.mem.cachedRootId i = s.mem.globalRootId := by
    intro i hi
    rcases hat.ids i hi with hagree | ⟨w, hw⟩
    · exact hagree
    · have := hw.installing
      rw [hrest w] at this
      cases this
  refine ⟨hptr, hids, fun u hu hidle => ?_⟩
  rw [← hptr]
  exact getNode_alone hidle (hids u hu)

/-- A delta on the root, a new root, and a delta on the new root, with a failed
`InstallRootNode` at the end. -/
def oneByOne : List (Act Op) :=
  whole 0 (.installNodeToReplace 5 (.first 5)) 9 ++ whole 1 (.installRootNode 5 6) 11 ++
  whole 0 (.installNodeToReplace 6 (.first 6)) 9 ++ whole 0 (.installRootNode 5 7) 3

theorem oneByOne_run : ((machine 2).runUnder (current 2) oneByOne (idleTree 5)).any fun s =>
      s.mem.globalRootId = 6 ∧ s.mem.mappingTable 6 = .made 1 ∧
        s.loc 0 = .idle ∧ s.loc 1 = .idle := by
  decide +kernel

/-- A run of threads 0 and 1 that ends with both idle ends at rest. -/
theorem rest_of_runUnder {K : Sys Mem Pc → Act Op → Prop} [∀ s a, Decidable (K s a)]
    {as : List (Act Op)} (hs : (machine threadNum).runUnder K as (idleTree r) = some s)
    (hw : ∀ a ∈ as, a.thread ≤ 1) (h0 : s.loc 0 = .idle) (h1 : s.loc 1 = .idle) (u : Nat) :
    (s.loc u).installing = false := by
  have hmem : ∀ a ∈ as, a.thread ∈ [0, 1] := by
    intro a ha
    have hle := hw a ha
    simp only [List.mem_cons, List.not_mem_nil]
    omega
  rw [Machine.runUnder_rest_of_mem [0, 1] (fun _ => rfl) hmem hs (by simp [h0, h1]) u]
  rfl

theorem root_agrees_at_rest_oneByOne : ∃ s : Sys Mem Pc, (machine 2).Reach (current 2) (fresh 5) s ∧
      (∀ u, (s.loc u).installing = false) ∧ s.mem.globalRootId = 6 ∧
      s.mem.rootPtr = s.mem.mappingTable s.mem.globalRootId := by
  obtain ⟨s, hs, hreach, hroot, _, h0, h1⟩ :=
    Machine.reach_of_any (fresh 5) ⟨rfl, fun _ => rfl⟩ oneByOne_run
  have hrest := rest_of_runUnder hs (by decide +kernel) h0 h1
  exact ⟨s, hreach, hrest, hroot, (root_agrees_at_rest hreach hrest).1⟩

/-- Thread 0 has installed a delta on the root and loaded it as desired when thread
1 changes the root; its `cas_ptr` then replaces the new root's node by its own. -/
def lateDelta : List (Act Op) :=
  Act.call 0 (Op.installNodeToReplace 5 (.first 5)) :: List.replicate 4 (Act.run 0) ++
  whole 1 (.installRootNode 5 6) 11 ++ List.replicate 3 (Act.run 0)

theorem lateDelta_run : ((machine 2).runUnder Machine.free lateDelta (idleTree 5)).any fun s =>
      s.mem.globalRootId = 6 ∧ s.mem.mappingTable 6 = .first 6 ∧ s.mem.rootPtr = .made 0 ∧
        s.loc 0 = .idle ∧ s.loc 1 = .idle := by
  decide +kernel

/-- At rest the replicated pointer is not the head of the root's entry. -/
theorem root_disagrees_at_rest : ∃ s : Sys Mem Pc, (machine 2).Reach Machine.free (fresh 5) s ∧
      (∀ u, (s.loc u).installing = false) ∧
      s.mem.rootPtr ≠ s.mem.mappingTable s.mem.globalRootId := by
  obtain ⟨s, hs, hreach, hroot, htable, hptr, h0, h1⟩ :=
    Machine.reach_of_any (fresh 5) ⟨rfl, fun _ => rfl⟩ lateDelta_run
  refine ⟨s, hreach,
    rest_of_runUnder hs (by decide +kernel) h0 h1, ?_⟩
  rw [hroot, htable, hptr]
  nofun

end ShmPcc.BwTreeRoot
