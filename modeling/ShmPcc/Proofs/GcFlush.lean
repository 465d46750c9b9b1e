import ShmPcc.Ref.GcFlush

/-!
# Every batch is flushed once, before its call returns

A request is ready from the moment a batch is put into `pending_nodes` until the worker
has flushed it, so the next batch is not put there before. That makes the nodes flushed
so far a beginning of all batches in their order (`Settled`, `Busy`), and "done" can only
be seen where all of them were flushed.

That no wake-up is lost rests on who may wait beside the worker. A thread waits while a
request is ready. The worker goes to sleep when none is, and has woken everybody since
the last one was; so it is alone, and stays alone until a batch comes
(`Inv.alone`). The `notify_one` of that batch has nobody else to wake.
-/

namespace ShmPcc.GcFlush

variable {N : Type} {s : Sys (Mem N) (Pc N)} {pc pc' : Pc N} {m m' : Mem N} {u w : Nat}

theorem nodesOf_append (bs cs : List (List (Option N))) :
    nodesOf (bs ++ cs) = nodesOf bs ++ nodesOf cs := by
  simp [nodesOf, List.reduceOption_append]

@[simp] theorem nodesOf_singleton (nodes : List (Option N)) : nodesOf [nodes] = nodes.reduceOption := by
  simp [nodesOf]

theorem nodesOf_take_prefix (bs : List (List (Option N))) (i : Nat) :
    nodesOf (bs.take i) <+: nodesOf bs := by
  refine ⟨nodesOf (bs.drop i), ?_⟩
  rw [← nodesOf_append, List.take_append_drop]

/-! ## The invariant -/

/-- The thread has the mutex. -/
def Pc.holds : Pc N → Bool
  | .readyCheck _ | .fill _ | .notify _ | .doneCheck _ | .unlock _ | .workCheck | .workBreak
  | .workSwap | .workUnlock _ | .doneSet | .doneUnlock => true
  | _ => false

def Pc.sleeps : Pc N → Bool
  | .readySleep _ | .doneSleep _ | .workSleep => true
  | _ => false

def Pc.works : Pc N → Bool
  | .workLock | .workCheck | .workSleep | .workBreak | .ended | .workSwap | .workUnlock _ | .flush _
  | .doneLock | .doneSet | .doneUnlock | .notifyAll => true
  | _ => false

theorem Pc.sleeps_of_holds (h : pc.holds = true) : pc.sleeps = false := by
  cases pc <;> first | rfl | cases h

/-- A `notify_one` is to come. -/
def Pc.notifies : Pc N → Bool
  | .notify _ => true
  | _ => false

/-- A `notify_all` is to come. -/
def Pc.notifiesAll : Pc N → Bool
  | .doneUnlock | .notifyAll => true
  | _ => false

/-- The worker has no batch. -/
structure Settled (m : Mem N) : Prop where
  taken : m.taken ≤ m.submitted.length
  flushed : m.flushed = nodesOf (m.submitted.take m.taken)
  rest : m.submitted.drop m.taken = if m.requestReady then [m.pendingNodes] else []

/-- The worker has to flush `rest` of its batch. -/
structure Busy (rest : List (Option N)) (m : Mem N) : Prop where
  ready : m.requestReady = true
  taken : m.taken = m.submitted.length
  flushed : m.flushed ++ rest.reduceOption = nodesOf m.submitted

def Pc.At : Pc N → Mem N → Prop
  | .fill _, m => m.requestReady = false
  | .notify i, m | .doneCheck i, m | .doneSleep i, m =>
    i < m.submitted.length ∧ (m.requestReady = true ∨ m.requestDone = true)
  | .unlock i, m => i < m.submitted.length ∧ nodesOf (m.submitted.take (i + 1)) <+: m.flushed
  | .workLock, m | .workCheck, m | .workSleep, m | .doneUnlock, m | .notifyAll, m => Settled m
  | .workSwap, m => Settled m ∧ m.requestReady = true
  | .workUnlock nodes, m | .flush nodes, m => Busy nodes m
  | .doneLock, m | .doneSet, m => Busy [] m
  | .workBreak, _ | .ended, _ => False
  | _, _ => True

structure Inv (m : Mem N) : Prop where
  running : m.stop = false
  done : m.requestDone = true → m.requestReady = false ∧ m.flushed = nodesOf m.submitted
  returned : ∀ i ∈ m.returned,
    i < m.submitted.length ∧ nodesOf (m.submitted.take (i + 1)) <+: m.flushed
  alone : 0 ∈ m.monitor.waiting → ∀ w ∈ m.monitor.waiting, w = 0
  awake : 0 ∈ m.monitor.waiting → m.monitor.holder = none → m.requestReady = false

structure Own (u : Nat) (pc : Pc N) (m : Mem N) : Prop where
  works : pc.works = true ↔ u = 0
  holds : m.monitor.holder = some u ↔ pc.holds = true
  sleeps : u ∈ m.monitor.waiting → pc.sleeps = true
  /-- Only a thread that is about to notify leaves a sleeping worker with a request. -/
  quiet : pc.holds = true → pc.notifies = false → 0 ∈ m.monitor.waiting → m.requestReady = false
  /-- Threads wait for a request to be done, or the worker is about to wake them. -/
  others : u = 0 → ∀ w ∈ m.monitor.waiting, w ≠ 0 → m.requestReady = true ∨ pc.notifiesAll = true
  place : pc.At m

/-! ## What one step does -/

/-- What a step of thread `u` is to the others. -/
inductive Effect (u : Nat) (m : Mem N) : Mem N → Prop where
  | sync {x : Monitor} {r : List Nat} (hx : Monitor.Moves u m.monitor x)
      (hwait : u ≠ 0 → u ∈ x.waiting → u ∈ m.monitor.waiting ∨ m.requestReady = true) :
      Effect u m { m with monitor := x, returned := r }
  | submit (nodes : List (Option N)) (hold : m.monitor.holder = some u)
      (hready : m.requestReady = false) : Effect u m (m.submit nodes)
  | work {m' : Mem N} (hu : u = 0) (hmonitor : m'.monitor = m.monitor)
      (hsubmitted : m'.submitted = m.submitted) (hflushed : m.flushed <+: m'.flushed)
      (hflags : m'.requestReady = m.requestReady ∧ m'.requestDone = m.requestDone ∨
        m.monitor.holder = some 0 ∧ m'.requestDone = true) : Effect u m m'

theorem Settled.all (h : Settled m) (hready : m.requestReady = false) :
    m.taken = m.submitted.length ∧ m.flushed = nodesOf m.submitted := by
  have hrest := h.rest
  rw [hready, if_neg (by decide), List.drop_eq_nil_iff] at hrest
  have htaken := le_antisymm h.taken hrest
  refine ⟨htaken, ?_⟩
  rw [h.flushed, htaken, List.take_length]

theorem Settled.submit (h : Settled m) (hready : m.requestReady = false) (nodes : List (Option N)) :
    Settled (m.submit nodes) := by
  obtain ⟨htaken, hflushed⟩ := h.all hready
  constructor
  · simp [Mem.submit, htaken]
  · simp [Mem.submit, htaken, hflushed]
  · simp [Mem.submit, htaken]

theorem Settled.swap (h : Settled m) (hready : m.requestReady = true) :
    Busy m.pendingNodes m.swap := by
  have hrest := h.rest
  rw [if_pos hready] at hrest
  have hall := List.take_append_drop m.taken m.submitted
  rw [hrest] at hall
  refine ⟨hready, ?_, ?_⟩
  · have hlen := congrArg List.length hrest
    simp only [List.length_drop, List.length_singleton] at hlen
    show m.taken + 1 = m.submitted.length
    omega
  · show m.flushed ++ m.pendingNodes.reduceOption = nodesOf m.submitted
    rw [h.flushed, ← hall, nodesOf_append, nodesOf_singleton, hall]

theorem flushNodeForGC_eq (node : Option N) :
    m.flushNodeForGC node = { m with flushed := m.flushed ++ [node].reduceOption } := by
  cases node <;> simp [Mem.flushNodeForGC]

theorem Busy.flush {node : Option N} {rest : List (Option N)} (h : Busy (node :: rest) m) :
    Busy rest (m.flushNodeForGC node) := by
  obtain ⟨hready, htaken, hflushed⟩ := h
  rw [flushNodeForGC_eq]
  refine ⟨hready, htaken, ?_⟩
  rwa [List.append_assoc, ← List.reduceOption_append]

theorem Busy.setDone (h : Busy [] m) : Settled m.setDone := by
  obtain ⟨_, htaken, hflushed⟩ := h
  constructor
  · simp [Mem.setDone, htaken]
  · simpa [Mem.setDone, htaken] using hflushed
  · simp [Mem.setDone, htaken]

/-- What is known of a batch that was submitted stays known. -/
theorem take_prefix_grows {i : Nat} {l l' : List N} {bs : List (List (Option N))}
    (cs : List (List (Option N))) (hl : l <+: l')
    (h : i < bs.length ∧ nodesOf (bs.take (i + 1)) <+: l) :
    i < (bs ++ cs).length ∧ nodesOf ((bs ++ cs).take (i + 1)) <+: l' := by
  obtain ⟨hi, hpre⟩ := h
  refine ⟨by rw [List.length_append]; omega, ?_⟩
  rw [List.take_append_of_le_length hi]
  exact hpre.trans hl

theorem Pc.At.sync {x : Monitor} {r : List Nat} (h : pc.At m) :
    pc.At { m with monitor := x, returned := r } := by
  cases pc with
  | workLock | workCheck | workSleep | doneUnlock | notifyAll => exact ⟨h.taken, h.flushed, h.rest⟩
  | workSwap => exact ⟨⟨h.1.taken, h.1.flushed, h.1.rest⟩, h.2⟩
  | workUnlock nodes | flush nodes | doneLock | doneSet => exact ⟨h.ready, h.taken, h.flushed⟩
  | _ => exact h

variable {nodes : List (Option N)}

/-- Where another thread puts a batch into `pending_nodes`, it has the mutex. -/
theorem Pc.At.submit (h : pc.At m) (hholds : pc.holds = false) (hready : m.requestReady = false) :
    pc.At (m.submit nodes) := by
  cases pc with
  | workLock | workSleep | notifyAll => exact Settled.submit h hready nodes
  | flush nodes | doneLock => exact absurd (hready.symm.trans h.ready) (by decide)
  | doneSleep i => exact ⟨by simpa [Mem.submit] using Nat.lt_succ_of_lt h.1, .inl rfl⟩
  | ended => exact h
  | idle | lock | readySleep => trivial
  | _ => cases hholds

theorem Pc.At.work (h : pc.At m) (hworks : pc.works = false)
    (hsubmitted : m'.submitted = m.submitted) (hflushed : m.flushed <+: m'.flushed)
    (hflags : m'.requestReady = m.requestReady ∧ m'.requestDone = m.requestDone ∨
      pc.holds = false ∧ m'.requestDone = true) : pc.At m' := by
  have hkept : (m.requestReady = true ∨ m.requestDone = true) →
      (m'.requestReady = true ∨ m'.requestDone = true) := by
    obtain ⟨hready, hdone⟩ | ⟨_, hdone⟩ := hflags
    · rw [hready, hdone]
      exact id
    · exact fun _ => .inr hdone
  cases pc with
  | fill nodes =>
    obtain ⟨hready, _⟩ | ⟨hholds, _⟩ := hflags
    · exact hready.trans h
    · cases hholds
  | notify i | doneCheck i | doneSleep i => exact ⟨hsubmitted ▸ h.1, hkept h.2⟩
  | unlock i =>
    have := take_prefix_grows [] hflushed h
    rw [List.append_nil] at this
    exact ⟨hsubmitted ▸ this.1, hsubmitted ▸ this.2⟩
  | idle | lock | readyCheck | readySleep => trivial
  | _ => cases hworks

theorem Own.not_holds (h : Own w pc m) (hw : w ≠ u) (hold : m.monitor.holder = some u) :
    pc.holds = false := by
  rw [Bool.eq_false_iff]
  intro hholds
  have := (h.holds.mpr hholds).symm.trans hold
  exact hw (Option.some.inj this)

theorem Own.move (h : Own w pc m) (hw : w ≠ u) (he : Effect u m m') : Own w pc m' := by
  obtain ⟨hworks, hholds, hsleeps, hquiet, hothers, hplace⟩ := id h
  cases he with
  | @sync x r hx hwait =>
    refine ⟨hworks, (hx.holder hw).trans hholds, fun h => hsleeps (hx.waiting_of_ne hw h), ?_, ?_,
      hplace.sync⟩
    · -- the worker went to sleep before, as this thread has the mutex
      intro hh hn h0
      obtain h0 | ⟨_, h0⟩ := hx.waiting h0
      · exact hquiet hh hn h0
      · exact absurd hh (by rw [h.not_holds hw h0]; decide)
    · rintro rfl v hv hv0
      obtain hv | ⟨rfl, _⟩ := hx.waiting hv
      · exact hothers rfl v hv hv0
      · obtain hin | hready := hwait hv0 hv
        · exact hothers rfl v hin hv0
        · exact .inl hready
  | submit nodes hold hready =>
    have hno := h.not_holds hw hold
    refine ⟨hworks, hholds, hsleeps, ?_, fun _ _ _ _ => .inl rfl, hplace.submit hno hready⟩
    intro hh
    exact absurd hh (by rw [hno]; decide)
  | work hu hmonitor hsubmitted hflushed hflags =>
    subst hu
    have hno : pc.works = false := by
      rw [Bool.eq_false_iff]
      exact fun h => hw (hworks.mp h)
    refine ⟨hworks, hmonitor ▸ hholds, hmonitor ▸ hsleeps, ?_, fun h => absurd h hw, ?_⟩
    · intro hh hn h0
      rw [hmonitor] at h0
      obtain ⟨hready, _⟩ | ⟨hold, _⟩ := hflags
      · exact hready.trans (hquiet hh hn h0)
      · exact absurd hh (by rw [h.not_holds hw hold]; decide)
    · exact hplace.work hno hsubmitted hflushed (hflags.imp_right fun h' => ⟨h.not_holds hw h'.1, h'.2⟩)

/-! ## The steps of a thread -/

/-- The step was a right one. -/
structure Stepped (u : Nat) (m : Mem N) (pc' : Pc N) (m' : Mem N) : Prop where
  inv : Inv m'
  own : Own u pc' m'
  effect : Effect u m m'

theorem Own.goto (hi : Inv m) (h : Own u pc m) (hworks : pc'.works = pc.works)
    (hholds : pc'.holds = pc.holds) (hsleeps : pc.sleeps = true → pc'.sleeps = true)
    (hnotifies : pc.notifies = pc'.notifies) (hall : pc.notifiesAll = true → pc'.notifiesAll = true)
    (hat : pc'.At m) : Stepped u m pc' m where
  inv := hi
  own :=
    { works := hworks ▸ h.works
      holds := hholds ▸ h.holds
      sleeps := fun hw => hsleeps (h.sleeps hw)
      quiet := fun hh hn => h.quiet (hholds ▸ hh) (hnotifies ▸ hn)
      others := fun hu w hw h0 => (h.others hu w hw h0).imp_right hall
      place := hat }
  effect := .sync .quiet fun _ hw => .inl hw

theorem Own.acquire (hi : Inv m) (h : Own u pc m) (hfree : m.monitor.holder = none)
    (hawake : u ∉ m.monitor.waiting) (hworks : pc'.works = pc.works) (hholds : pc'.holds = true)
    (hall : pc.notifiesAll = false) (hat : pc'.At m) :
    Stepped u m pc' (m.setMonitor { m.monitor with holder := some u }) where
  inv := { running := hi.running, done := hi.done, returned := hi.returned, alone := hi.alone,
           awake := fun _ hn => nomatch hn }
  own :=
    { works := hworks ▸ h.works
      holds := iff_of_true rfl hholds
      sleeps := fun hw => absurd hw hawake
      quiet := fun _ _ h0 => hi.awake h0 hfree
      others := fun hu w hw h0 => (h.others hu w hw h0).imp_right fun hn => absurd hn (by rw [hall]; decide)
      place := hat.sync }
  effect := .sync (.acquire hfree) fun _ hw => .inl hw

theorem Own.release {r : List Nat} (hi : Inv m) (h : Own u pc m) (hold : pc.holds = true)
    (hnotifies : pc.notifies = false) (hworks : pc'.works = pc.works) (hholds : pc'.holds = false)
    (hall : pc.notifiesAll = true → pc'.notifiesAll = true) (hat : pc'.At m)
    (hr : ∀ i ∈ r, i < m.submitted.length ∧ nodesOf (m.submitted.take (i + 1)) <+: m.flushed) :
    Stepped u m pc' { m.release with returned := r } where
  inv := { running := hi.running, done := hi.done, returned := hr, alone := hi.alone,
           awake := fun h0 _ => h.quiet hold hnotifies h0 }
  own :=
    { works := hworks ▸ h.works
      holds := iff_of_false nofun (by rw [hholds]; decide)
      sleeps := fun hw => absurd (h.sleeps hw) (by rw [Pc.sleeps_of_holds hold]; decide)
      quiet := fun hh => absurd hh (by rw [hholds]; decide)
      others := fun hu w hw h0 => (h.others hu w hw h0).imp_right hall
      place := hat.sync }
  effect := .sync (.release (h.holds.mpr hold)) fun _ hw => .inl hw

/-- A submitter sleeps where a request is ready: the worker is not asleep then. -/
theorem Own.sleep (hi : Inv m) (h : Own u pc m) (hold : pc.holds = true)
    (hnotifies : pc.notifies = false) (hready : m.requestReady = true) (hu : pc.works = false)
    (hu' : pc'.works = false) (hholds : pc'.holds = false) (hsleeps : pc'.sleeps = true) (hat : pc'.At m) :
    Stepped u m pc' (m.wait u) := by
  have hne : u ≠ 0 := fun hu0 => nomatch hu.symm.trans (h.works.mpr hu0)
  have hno : 0 ∉ u :: m.monitor.waiting := by
    rw [List.mem_cons]
    rintro (h0 | h0)
    · exact hne h0.symm
    · exact nomatch hready.symm.trans (h.quiet hold hnotifies h0)
  constructor
  · exact ⟨hi.running, hi.done, hi.returned, fun h0 => absurd h0 hno, fun h0 => absurd h0 hno⟩
  · exact ⟨iff_of_false (by rw [hu']; decide) hne, iff_of_false nofun (by rw [hholds]; decide),
      fun _ => hsleeps, fun _ _ h0 => absurd h0 hno, fun h0 => absurd h0 hne, hat.sync⟩
  · exact .sync (.wait (h.holds.mpr hold)) fun _ _ => .inr hready

theorem Own.workSleep (hi : Inv m) (h : Own u .workCheck m) (hready : m.requestReady = false) :
    Stepped u m .workSleep (m.wait u) := by
  obtain rfl := h.works.mp rfl
  have halone : ∀ w ∈ 0 :: m.monitor.waiting, w = 0 := by
    intro w hw
    obtain rfl | hw := List.mem_cons.mp hw
    · rfl
    · by_contra hw0
      obtain hr | hn := h.others rfl w hw hw0
      · exact nomatch hready.symm.trans hr
      · cases hn
  constructor
  · exact ⟨hi.running, hi.done, hi.returned, fun _ => halone, fun _ _ => hready⟩
  · exact ⟨h.works, iff_of_false nofun nofun, fun _ => rfl, nofun,
      fun _ w hw h0 => absurd (halone w hw) h0, h.place.sync⟩
  · exact .sync (.wait (h.holds.mpr rfl)) fun hu => absurd rfl hu

theorem Own.submit (hi : Inv m) (h : Own u (.fill nodes) m) :
    Stepped u m (.notify m.submitted.length) (m.submit nodes) := by
  have hne : u ≠ 0 := fun hu => nomatch h.works.mpr hu
  have hold := h.holds.mpr rfl
  constructor
  · refine ⟨hi.running, nofun, ?_, hi.alone, fun _ hn => nomatch hold.symm.trans hn⟩
    intro i hir
    exact take_prefix_grows [nodes] (List.prefix_refl _) (hi.returned i hir)
  · refine ⟨iff_of_false nofun hne, iff_of_true hold rfl, h.sleeps, nofun, fun hu => absurd hu hne, ?_⟩
    exact ⟨by simp [Mem.submit], .inl rfl⟩
  · exact .submit nodes hold h.place

/-- A notification that has the worker among its choices has no other. -/
theorem Own.notifyOne {i : Nat} (hi : Inv m) (h : Own u (.notify i) m) (hw : w ∈ m.monitor.waiting) :
    Stepped u m (.doneCheck i)
      (m.setMonitor { m.monitor with waiting := m.monitor.waiting.filter (· ≠ w) }) := by
  have hne : u ≠ 0 := fun hu => nomatch h.works.mpr hu
  have hno : 0 ∉ m.monitor.waiting.filter (· ≠ w) := by
    intro h0
    obtain ⟨h0, hw0⟩ := List.mem_filter.mp h0
    exact of_decide_eq_true hw0 (hi.alone h0 w hw).symm
  constructor
  · exact ⟨hi.running, hi.done, hi.returned, fun h0 => absurd h0 hno, fun h0 => absurd h0 hno⟩
  · refine ⟨h.works, h.holds, ?_, fun _ _ h0 => absurd h0 hno, fun hu => absurd hu hne,
      h.place⟩
    exact fun hu => h.sleeps (List.mem_filter.mp hu).1
  · exact .sync (.wake w) fun _ hu => .inl (List.mem_filter.mp hu).1

theorem Own.wake (hi : Inv m) (h : Own u pc m) :
    Stepped u m pc (m.setMonitor { m.monitor with waiting := m.monitor.waiting.filter (· ≠ u) }) := by
  have hsub : ∀ {w}, w ∈ m.monitor.waiting.filter (· ≠ u) → w ∈ m.monitor.waiting :=
    fun hw => (List.mem_filter.mp hw).1
  constructor
  · exact ⟨hi.running, hi.done, hi.returned, fun h0 w hw => hi.alone (hsub h0) w (hsub hw),
      fun h0 => hi.awake (hsub h0)⟩
  · exact ⟨h.works, h.holds, fun hw => h.sleeps (hsub hw), fun hh hn h0 => h.quiet hh hn (hsub h0),
      fun hu w hw => h.others hu w (hsub hw), h.place.sync⟩
  · exact .sync (.wake u) fun _ hw => .inl (hsub hw)

theorem Own.work (hi : Inv m) (h : Own u pc m) (hu : u = 0) (hworks : pc'.works = true)
    (hholds : pc'.holds = pc.holds) (hsleeps : pc.sleeps = false) (hstop : m'.stop = m.stop)
    (hmonitor : m'.monitor = m.monitor) (hsubmitted : m'.submitted = m.submitted)
    (hreturned : m'.returned = m.returned) (hflushed : m.flushed <+: m'.flushed)
    (hflags : m'.requestReady = m.requestReady ∧ m'.requestDone = m.requestDone ∨
      pc.holds = true ∧ m'.requestDone = true)
    (hdone : m'.requestDone = true → m'.requestReady = false ∧ m'.flushed = nodesOf m'.submitted)
    (hothers : m'.requestReady = true ∨ pc'.notifiesAll = true) (hat : pc'.At m') :
    Stepped u m pc' m' := by
  subst hu
  have hno : 0 ∉ m'.monitor.waiting := by
    rw [hmonitor]
    exact fun h0 => nomatch hsleeps.symm.trans (h.sleeps h0)
  constructor
  · refine ⟨hstop.trans hi.running, hdone, ?_, fun h0 => absurd h0 hno, fun h0 => absurd h0 hno⟩
    rw [hreturned, hsubmitted]
    intro i hir
    have := take_prefix_grows [] hflushed (hi.returned i hir)
    rwa [List.append_nil] at this
  · exact ⟨iff_of_true hworks rfl, by rw [hmonitor, hholds]; exact h.holds, fun h0 => absurd h0 hno,
      fun _ _ h0 => absurd h0 hno, fun _ _ _ _ => hothers, hat⟩
  · exact .work rfl hmonitor hsubmitted hflushed
      (hflags.imp_right fun hf => ⟨h.holds.mpr hf.1, hf.2⟩)

theorem run_own (hi : Inv m) (h : Own u pc m) (hr : run u pc m = some (pc', m')) :
    Stepped u m pc' m' := by
  cases pc with
  | idle | ended => cases hr
  | lock nodes =>
    obtain ⟨hfree, ⟨⟩⟩ := Monitor.map_acquire.mp hr
    exact h.acquire hi hfree (fun hw => nomatch h.sleeps hw) rfl rfl rfl trivial
  | readyCheck nodes =>
    simp only [run] at hr
    split at hr
    · next hready =>
      cases hr
      exact h.goto hi rfl rfl nofun rfl nofun hready
    · next hready =>
      cases hr
      exact h.sleep hi rfl rfl (by simpa using hready) rfl rfl rfl rfl trivial
  | readySleep nodes =>
    obtain ⟨hawake, hfree, ⟨⟩⟩ := Monitor.map_resume.mp hr
    exact h.acquire hi hfree hawake rfl rfl rfl trivial
  | fill nodes =>
    cases hr
    exact h.submit hi
  | notify i =>
    simp only [run] at hr
    split at hr
    · next hnone =>
      cases hr
      have hno : ∀ w, w ∉ m.monitor.waiting := by simp [hnone]
      exact ⟨hi, ⟨h.works, h.holds, fun hw => absurd hw (hno _), fun _ _ hw => absurd hw (hno _),
        fun _ w hw => absurd hw (hno w), h.place⟩, .sync .quiet fun _ hw => .inl hw⟩
    · cases hr
  | doneCheck i =>
    simp only [run] at hr
    split at hr
    · next hdone =>
      cases hr
      refine h.goto hi rfl rfl nofun rfl nofun ⟨h.place.1, ?_⟩
      rw [(hi.done hdone).2]
      exact nodesOf_take_prefix ..
    · next hdone =>
      cases hr
      exact h.sleep hi rfl rfl (h.place.2.resolve_right hdone) rfl rfl rfl rfl h.place
  | doneSleep i | workSleep =>
    obtain ⟨hawake, hfree, ⟨⟩⟩ := Monitor.map_resume.mp hr
    exact h.acquire hi hfree hawake rfl rfl rfl h.place
  | unlock i =>
    cases hr
    refine h.release hi rfl rfl rfl rfl nofun trivial ?_
    intro j hj
    obtain hj | rfl := List.mem_append.mp hj |>.imp_right List.mem_singleton.mp
    · exact hi.returned j hj
    · exact h.place
  | workLock | doneLock =>
    obtain ⟨hfree, ⟨⟩⟩ := Monitor.map_acquire.mp hr
    exact h.acquire hi hfree (fun hw => nomatch h.sleeps hw) rfl rfl rfl h.place
  | workCheck =>
    simp only [run, hi.running, Bool.false_eq_true, false_or, false_and, if_false] at hr
    split at hr
    · next hready =>
      cases hr
      exact h.goto hi rfl rfl nofun rfl nofun ⟨h.place, hready⟩
    · next hready =>
      cases hr
      exact h.workSleep hi (by simpa using hready)
  | workBreak => exact h.place.elim
  | workSwap =>
    cases hr
    obtain ⟨hsettled, hready⟩ := h.place
    exact h.work hi (h.works.mp rfl) rfl rfl rfl rfl rfl rfl rfl (List.prefix_refl _) (.inl ⟨rfl, rfl⟩)
      hi.done (.inl hready) (hsettled.swap hready)
  | workUnlock nodes =>
    cases hr
    exact h.release hi rfl rfl rfl rfl nofun h.place hi.returned
  | flush nodes =>
    have hbusy : Busy nodes m := h.place
    cases nodes with
    | nil =>
      cases hr
      exact h.goto hi rfl rfl nofun rfl nofun hbusy
    | cons node rest =>
      cases hr
      have hflush := hbusy.flush
      rw [flushNodeForGC_eq] at hflush ⊢
      -- while a batch is flushed nothing is done
      exact h.work hi (h.works.mp rfl) rfl rfl rfl rfl rfl rfl rfl (List.prefix_append ..)
        (.inl ⟨rfl, rfl⟩) (fun hdone => nomatch hbusy.ready.symm.trans (hi.done hdone).1)
        (.inl hbusy.ready) hflush
  | doneSet =>
    cases hr
    have hbusy : Busy [] m := h.place
    have hflushed : m.flushed = nodesOf m.submitted := by simpa using hbusy.flushed
    exact h.work hi (h.works.mp rfl) rfl rfl rfl rfl rfl rfl rfl (List.prefix_refl _) (.inr ⟨rfl, rfl⟩)
      (fun _ => ⟨rfl, hflushed⟩) (.inr rfl) hbusy.setDone
  | doneUnlock =>
    cases hr
    exact h.release hi rfl rfl rfl rfl (fun _ => rfl) h.place hi.returned
  | notifyAll =>
    cases hr
    refine ⟨⟨hi.running, hi.done, hi.returned, nofun, nofun⟩, ?_, ?_⟩
    · exact ⟨h.works, h.holds, nofun, nofun, nofun, h.place.sync⟩
    · exact .sync .notifyAll nofun

theorem call_own {op : Op N} (hi : Inv m) (h : Own u pc m) (hc : call u op pc m = some (pc', m')) :
    Stepped u m pc' m' := by
  unfold call at hc
  split at hc
  · split at hc
    · cases hc
      exact h.goto hi rfl rfl id rfl id trivial
    · cases hc
      exact h.goto hi rfl rfl nofun rfl nofun trivial
  · obtain ⟨hw, ⟨⟩⟩ := Monitor.map_wake.mp hc
    exact h.notifyOne hi hw
  · obtain ⟨_, ⟨⟩⟩ := Monitor.map_wake.mp hc
    exact h.wake hi
  · cases hc

theorem Own.settled_or_busy (h : Own 0 pc m) : Settled m ∨ ∃ rest, Busy rest m := by
  have hplace := h.place
  have hworks := h.works.mpr rfl
  cases pc with
  | workLock | workCheck | workSleep | doneUnlock | notifyAll => exact .inl hplace
  | workSwap => exact .inl hplace.1
  | workUnlock nodes | flush nodes | doneLock | doneSet => exact .inr ⟨_, hplace⟩
  | workBreak | ended => exact hplace.elim
  | _ => cases hworks

theorem holds_of_reach (h : (machine N).Reach Machine.free fresh s) : Machine.Holds Inv Own s := by
  refine h.invariant ?_ ?_
  · intro s hs
    obtain ⟨hm, h0, hothers⟩ := hs
    refine ⟨?_, fun u => ?_⟩
    · rw [hm]
      constructor <;> simp [new, Monitor.new]
    · rw [hm]
      by_cases hu : u = 0
      · subst hu
        rw [h0]
        refine ⟨iff_of_true rfl rfl, iff_of_false nofun nofun, nofun, nofun, nofun, ?_⟩
        constructor <;> simp [new, nodesOf]
      · rw [hothers u hu]
        exact ⟨iff_of_false nofun hu, iff_of_false nofun nofun, nofun, nofun, nofun, trivial⟩
  · intro s a pc' m' hs _ hact
    have hstep : Stepped a.thread s.mem pc' m' := by
      cases a with
      | call u op => exact call_own hs.1 (hs.2 u) hact
      | run u => exact run_own hs.1 (hs.2 u) hact
    exact ⟨hstep.inv, hstep.own, fun w hw => (hs.2 w).move hw hstep.effect⟩

/-! ## What is submitted can be flushed

The thread that has the mutex gives it up, and then the worker is not asleep and needs
nobody. -/

/-- The mutex is free, and the batches are still there. -/
def Freed (bs : List (List (Option N))) (s : Sys (Mem N) (Pc N)) : Prop :=
  s.mem.monitor.holder = none ∧ bs <+: s.mem.submitted

/-- Some schedule leads to where `P` holds of what is submitted now. -/
def Can (P : List (List (Option N)) → Sys (Mem N) (Pc N) → Prop) (s : Sys (Mem N) (Pc N)) : Prop :=
  (machine N).Leads Machine.free (P s.mem.submitted) s

theorem leads_doneCheck {i : Nat} (hloc : s.loc u = .doneCheck i) :
    Can Freed s := by
  cases hdone : s.mem.requestDone with
  | true =>
    refine .run trivial hloc (if_pos hdone) (.run trivial Sys.loc_update rfl (.here ?_))
    exact ⟨rfl, List.prefix_refl _⟩
  | false =>
    refine .run trivial hloc (if_neg (by rw [hdone]; decide)) (.here ?_)
    exact ⟨rfl, List.prefix_refl _⟩

theorem leads_notify {i : Nat} (hloc : s.loc u = .notify i) :
    Can Freed s := by
  cases hwaiting : s.mem.monitor.waiting with
  | nil => exact .run trivial hloc (if_pos hwaiting) (leads_doneCheck Sys.loc_update)
  | cons w rest =>
    -- whoever is chosen
    obtain ⟨x, hcall⟩ : ∃ x, call u (.notifyOne w) (.notify i) s.mem = some (.doneCheck i, s.mem.setMonitor x) :=
      ⟨_, Monitor.map_wake.mpr ⟨by simp [hwaiting], rfl⟩⟩
    rw [← hloc] at hcall
    exact .step trivial (Machine.step_call hcall) (leads_doneCheck Sys.loc_update)

theorem leads_fill (hloc : s.loc u = .fill nodes) :
    Can Freed s := by
  refine .run trivial hloc rfl ((leads_notify Sys.loc_update).trans ?_)
  intro s' hs'
  exact .here ⟨hs'.1, (List.prefix_append _ _).trans hs'.2⟩

theorem leads_workSwap (hloc : s.loc u = .workSwap) : Can Freed s := by
  refine .run trivial hloc rfl (.run trivial Sys.loc_update rfl (.here ?_))
  exact ⟨rfl, List.prefix_refl _⟩

theorem leads_workCheck (hloc : s.loc u = .workCheck) (hstop : s.mem.stop = false) :
    Can Freed s := by
  cases hready : s.mem.requestReady with
  | true =>
    have hr : run u .workCheck s.mem = some (.workSwap, s.mem) := by simp [run, hready, hstop]
    exact .run trivial hloc hr (leads_workSwap Sys.loc_update)
  | false =>
    have hr : run u .workCheck s.mem = some (.workSleep, s.mem.wait u) := by
      simp [run, hready, hstop]
    exact .run trivial hloc hr (.here ⟨rfl, List.prefix_refl _⟩)

theorem leads_free (hholds : (s.loc u).holds = true) (hstop : s.mem.stop = false) :
    Can Freed s := by
  cases hloc : s.loc u with
  | readyCheck nodes =>
    cases hready : s.mem.requestReady with
    | false => exact .run trivial hloc (if_pos hready) (leads_fill Sys.loc_update)
    | true =>
      exact .run trivial hloc (if_neg (by rw [hready]; decide)) (.here ⟨rfl, List.prefix_refl _⟩)
  | fill nodes => exact leads_fill hloc
  | notify i => exact leads_notify hloc
  | doneCheck i => exact leads_doneCheck hloc
  | workCheck => exact leads_workCheck hloc hstop
  | workSwap => exact leads_workSwap hloc
  | doneSet => exact .run trivial hloc rfl (.run trivial Sys.loc_update rfl (.here ⟨rfl, List.prefix_refl _⟩))
  | unlock i | workBreak | workUnlock nodes | doneUnlock =>
    exact .run trivial hloc rfl (.here ⟨rfl, List.prefix_refl _⟩)
  | _ =>
    rw [hloc] at hholds
    cases hholds

/-- Everything in `bs` was flushed. -/
def Flushed (bs : List (List (Option N))) (s : Sys (Mem N) (Pc N)) : Prop :=
  nodesOf bs <+: s.mem.flushed

theorem Flushed.of_eq (h : s.mem.flushed = nodesOf bs) : Flushed bs s :=
  ⟨[], (List.append_nil _).trans h.symm⟩

theorem leads_flush (nodes : List (Option N)) : ∀ {s : Sys (Mem N) (Pc N)}, s.loc 0 = .flush nodes →
    Busy nodes s.mem → Can Flushed s := by
  induction nodes with
  | nil =>
    intro s _ hbusy
    have hall := hbusy.flushed
    rw [List.reduceOption_nil, List.append_nil] at hall
    exact .here (.of_eq hall)
  | cons node rest ih =>
    intro s hloc hbusy
    have hrest := ih (s := ⟨s.mem.flushNodeForGC node, Function.update s.loc 0 (.flush rest)⟩)
      Sys.loc_update hbusy.flush
    have hsubmitted : (s.mem.flushNodeForGC node).submitted = s.mem.submitted := by
      rw [flushNodeForGC_eq]
    rw [Can, hsubmitted] at hrest
    exact .run trivial hloc rfl hrest

theorem leads_check (hloc : s.loc 0 = .workCheck) (hstop : s.mem.stop = false)
    (hready : s.mem.requestReady = true) (h : Settled s.mem) :
    Can Flushed s := by
  have hr : run 0 .workCheck s.mem = some (.workSwap, s.mem) := by simp [run, hready, hstop]
  refine .run trivial hloc hr (.run trivial Sys.loc_update rfl (.run trivial Sys.loc_update rfl ?_))
  have hbusy := h.swap hready
  exact leads_flush s.mem.pendingNodes (s := ⟨s.mem.swap.release, _⟩) Sys.loc_update
    ⟨hbusy.ready, hbusy.taken, hbusy.flushed⟩

theorem leads_lock (hloc : s.loc 0 = .workLock) (hfree : s.mem.monitor.holder = none)
    (hstop : s.mem.stop = false) (h : Settled s.mem) :
    Can Flushed s := by
  cases hready : s.mem.requestReady with
  | false =>
    exact .here (.of_eq (h.all hready).2)
  | true =>
    have hr : run 0 .workLock s.mem =
        some (.workCheck, s.mem.setMonitor { s.mem.monitor with holder := some 0 }) := by
      simp [run, Monitor.acquire, hfree]
    exact .run trivial hloc hr (leads_check Sys.loc_update hstop
      hready ⟨h.taken, h.flushed, h.rest⟩)

/-- With the mutex free, the worker can flush what was submitted. -/
theorem leads_work (hs : Machine.Holds Inv Own s) (hfree : s.mem.monitor.holder = none) :
    Can Flushed s := by
  obtain ⟨hi, hown⟩ := hs
  have h := hown 0
  have hno : (s.loc 0).holds = true → False := fun hh => nomatch hfree.symm.trans (h.holds.mpr hh)
  have hworks := h.works.mpr rfl
  have hplace := h.place
  cases hloc : s.loc 0 with
  | workLock =>
    rw [hloc] at hplace
    exact leads_lock hloc hfree hi.running hplace
  | workSleep =>
    rw [hloc] at hplace
    cases hready : s.mem.requestReady with
    | false =>
      exact .here (.of_eq (Settled.all hplace hready).2)
    | true =>
      have hawake : 0 ∉ s.mem.monitor.waiting :=
        fun h0 => nomatch hready.symm.trans (hi.awake h0 hfree)
      have hr : run 0 .workSleep s.mem =
          some (.workCheck, s.mem.setMonitor { s.mem.monitor with holder := some 0 }) := by
        simp [run, Monitor.resume, Monitor.acquire, hfree, hawake]
      exact .run trivial hloc hr (leads_check Sys.loc_update
        hi.running hready ⟨hplace.taken, hplace.flushed, hplace.rest⟩)
  | flush nodes =>
    rw [hloc] at hplace
    exact leads_flush nodes hloc hplace
  | doneLock =>
    rw [hloc] at hplace
    have hall := Busy.flushed hplace
    rw [List.reduceOption_nil, List.append_nil] at hall
    exact .here (.of_eq hall)
  | notifyAll =>
    rw [hloc] at hplace
    exact .run trivial hloc rfl (leads_lock Sys.loc_update hfree
      hi.running ⟨hplace.taken, hplace.flushed, hplace.rest⟩)
  | ended =>
    rw [hloc] at hplace
    exact hplace.elim
  | workCheck | workBreak | workSwap | workUnlock nodes | doneSet | doneUnlock =>
    exact (hno (by rw [hloc]; rfl)).elim
  | _ =>
    rw [hloc] at hworks
    cases hworks

theorem leads_flushed (hs : (machine N).Reach Machine.free fresh s) :
    Can Flushed s := by
  have hfree : Can Freed s := by
    cases hholder : s.mem.monitor.holder with
    | none => exact .here ⟨hholder, List.prefix_refl _⟩
    | some u =>
      obtain ⟨hi, hown⟩ := holds_of_reach hs
      exact leads_free ((hown u).holds.mp hholder) hi.running
  refine (hfree.reach hs).trans ?_
  intro s' hs'
  obtain ⟨hreach, hnone, hpre⟩ := hs'
  refine (leads_work (holds_of_reach hreach) hnone).trans ?_
  intro s'' hs''
  obtain ⟨cs, hcs⟩ := hpre
  rw [← hcs, Flushed, nodesOf_append] at hs''
  exact .here ((List.prefix_append _ _).trans hs'')

/-- In every state a run reaches: the nodes flushed so far are a beginning of the batches
in the order in which they were submitted; a call has returned only for a batch that was
flushed; a batch is put into `pending_nodes` when the worker has taken all before it; a
worker that sleeps while a request is ready is the only one the notification to come can
wake; and what was submitted can still be flushed. -/
theorem submitAndWait_hands_over (hs : (machine N).Reach Machine.free fresh s) :
    s.mem.flushed <+: nodesOf s.mem.submitted ∧
    (∀ i ∈ s.mem.returned,
      i < s.mem.submitted.length ∧ nodesOf (s.mem.submitted.take (i + 1)) <+: s.mem.flushed) ∧
    (∀ u nodes, s.loc u = .fill nodes → s.mem.taken = s.mem.submitted.length) ∧
    (s.mem.requestReady = true → 0 ∈ s.mem.monitor.waiting →
      (∃ u i, s.mem.monitor.holder = some u ∧ s.loc u = .notify i) ∧
        ∀ w ∈ s.mem.monitor.waiting, w = 0) ∧
    ∃ as s', (machine N).runUnder Machine.free as s = some s' ∧
      nodesOf s.mem.submitted <+: s'.mem.flushed := by
  obtain ⟨hi, hown⟩ := holds_of_reach hs
  have hworker := (hown 0).settled_or_busy
  refine ⟨?_, hi.returned, ?_, ?_, leads_flushed hs⟩
  · obtain hsettled | ⟨rest, hbusy⟩ := hworker
    · rw [hsettled.flushed]
      exact nodesOf_take_prefix ..
    · exact ⟨rest.reduceOption, hbusy.flushed⟩
  · intro u nodes hloc
    have hready : s.mem.requestReady = false := by
      have hplace := (hown u).place
      rwa [hloc] at hplace
    obtain hsettled | ⟨rest, hbusy⟩ := hworker
    · exact (hsettled.all hready).1
    · exact nomatch hready.symm.trans hbusy.ready
  · intro hready hsleep
    refine ⟨?_, hi.alone hsleep⟩
    cases hholder : s.mem.monitor.holder with
    | none => exact nomatch hready.symm.trans (hi.awake hsleep hholder)
    | some u =>
      have hu := hown u
      have hholds := hu.holds.mp hholder
      refine ⟨u, ?_⟩
      cases hloc : s.loc u with
      | notify i => exact ⟨i, rfl, rfl⟩
      | _ =>
        exact nomatch hready.symm.trans (hu.quiet hholds (by rw [hloc]; rfl) hsleep)

def idleWorker : Sys (Mem Nat) (Pc Nat) := ⟨new, fun u => if u = 0 then .workLock else .idle⟩

/-- Thread 1 submits while the worker sleeps, and is not scheduled when its batch is done.
Thread 2 wakes up by itself and puts its batch there first, its notification wakes thread 1
in place of the worker, and thread 1 finds that nothing is done and sleeps again. -/
def twoBatches : List (Act (Op Nat)) :=
  List.replicate 2 (Act.run 0) ++
  [Act.call 1 (Op.submitAndWait [some 7, none]), Act.run 1, Act.run 1, Act.run 1] ++
  [Act.call 1 (Op.notifyOne 0), Act.run 1] ++ List.replicate 4 (Act.run 0) ++
  [Act.call 2 (Op.submitAndWait [some 8]), Act.run 2, Act.run 2] ++ List.replicate 6 (Act.run 0) ++
  [Act.call 2 Op.spurious, Act.run 2, Act.run 2, Act.run 2, Act.call 2 (Op.notifyOne 1), Act.run 2] ++
  [Act.run 1, Act.run 1] ++ List.replicate 11 (Act.run 0) ++
  List.replicate 3 (Act.run 1) ++ List.replicate 3 (Act.run 2)

theorem twoBatches_run : ((machine Nat).runUnder Machine.free twoBatches idleWorker).any fun s =>
      s.mem.submitted = [[some 7, none], [some 8]] ∧ s.mem.returned = [0, 1] := by
  decide +kernel

theorem submitAndWait_hands_over_twoBatches :
    ∃ s : Sys (Mem Nat) (Pc Nat), (machine Nat).Reach Machine.free fresh s ∧
      s.mem.returned = [0, 1] ∧ [7, 8] <+: s.mem.flushed := by
  obtain ⟨s, _, hreach, hsubmitted, hreturned⟩ :=
    Machine.reach_of_any fresh ⟨rfl, rfl, fun u hu => if_neg hu⟩ twoBatches_run
  obtain ⟨_, hflushed, _⟩ := submitAndWait_hands_over hreach
  have h1 := (hflushed 1 (by rw [hreturned]; decide)).2
  rw [hsubmitted] at h1
  exact ⟨s, hreach, hreturned, h1⟩

end ShmPcc.GcFlush
