import ShmPcc.Proofs.MpmcQueue
import ShmPcc.Ref.ThreadPool

/-!
# Closing the pool runs every task once

What a bucket's queue sees of the pool is a run of that queue (`bucket_reach`), so what is
known of the queue holds of every bucket: an item goes to the one thread that took its
ticket. That thread runs it before it does anything else.

The rest is about the time after `stop`. No enqueue is under way then, so a `try_dequeue`
that finds nothing has seen the head of its queue at the tail (`Emptied`), and nothing
moves the tail any more. A worker that has ended has seen that of every bucket it drains,
and each bucket is drained by the worker of its residue (`covered`).
-/

namespace ShmPcc.ThreadPool

open Function (update update_apply update_self update_of_ne)

variable {T : Type} {C : Config T} {s s' : Sys (Mem T) (Pc T)} {pc pc' : Pc T} {m m' : Mem T}
  {u w b : Nat}

/-! ## The queue of a bucket -/

/-- Where a thread is in the queue of bucket `b`. -/
def Pc.inQueue (C : Config T) (u b : Nat) : Pc T → MpmcQueue.Pc T
  | .enqueue b' pc => if b' = b then pc else .idle
  | .tryDequeue site pc => if site.bucket C u = b then pc else .idle
  | _ => .idle

/-- The pool as the queue of bucket `b` sees it. -/
def inBucket (C : Config T) (b : Nat) (s : Sys (Mem T) (Pc T)) :
    Sys (MpmcQueue.Mem T) (MpmcQueue.Pc T) :=
  ⟨s.mem.tasks b, fun u => (s.loc u).inQueue C u b⟩

variable {q q' : MpmcQueue.Pc T} {site : Site}

theorem inQueue_afterStep :
    (afterStep C site q q').inQueue C u b = if site.bucket C u = b then q' else .idle := by
  unfold afterStep
  split
  · cases q <;> cases site <;> simp [Pc.inQueue]
  · rfl

theorem inQueue_afterEnqueue {b' : Nat} :
    (afterEnqueue b' q).inQueue C u b = if b' = b then q else .idle := by
  unfold afterEnqueue
  split
  · simp [Pc.inQueue]
  · rfl

/-- A step of the pool, seen from a bucket. -/
inductive QueueStep (C : Config T) (u : Nat) (q : MpmcQueue.Pc T) (m : MpmcQueue.Mem T) :
    MpmcQueue.Pc T → MpmcQueue.Mem T → Prop where
  | none : QueueStep C u q m q m
  | call (op : MpmcQueue.Op T) {q' : MpmcQueue.Pc T} {m' : MpmcQueue.Mem T}
      (h : MpmcQueue.call op q m = some (q', m')) : QueueStep C u q m q' m'
  | run {q' : MpmcQueue.Pc T} {m' : MpmcQueue.Mem T}
      (h : MpmcQueue.run C.queue u q m = some (q', m')) : QueueStep C u q m q' m'

theorem queueStep_begin (hpc : ∀ b, pc.inQueue C u b = .idle) (ht : m'.tasks = m.tasks) :
    QueueStep C u (pc.inQueue C u b) (m.tasks b)
      ((Pc.tryDequeue site .tryDequeue : Pc T).inQueue C u b) (m'.tasks b) := by
  rw [hpc b, ht]
  simp only [Pc.inQueue]
  split
  · exact .call .tryDequeue rfl
  · exact .none

variable {t' : MpmcQueue.Mem T}

/-- An access to the queue of bucket `b'`. -/
theorem queueStep_run {b' : Nat} (hr : MpmcQueue.run C.queue u q (m.tasks b') = some (q', t')) :
    QueueStep C u (if b' = b then q else .idle) (m.tasks b) (if b' = b then q' else .idle)
      ((m.setTasks b' t').tasks b) := by
  by_cases hb : b' = b
  · subst hb
    simp only [if_true, Mem.setTasks, update_self]
    exact .run hr
  · simp only [if_neg hb, Mem.setTasks, update_of_ne (Ne.symm hb)]
    exact .none

theorem act_queueStep {a : Act (Op T)} (h : (machine C).act s a = some (pc', m')) (b : Nat) :
    QueueStep C a.thread ((s.loc a.thread).inQueue C a.thread b) (s.mem.tasks b)
      (pc'.inQueue C a.thread b) (m'.tasks b) := by
  cases a with
  | call u op =>
    simp only [Machine.act, machine, Act.thread] at h ⊢
    generalize s.loc u = pc at h
    unfold call at h
    split at h
    · cases h
      simp only [Pc.inQueue]
      split
      · exact .call (.enqueue _) rfl
      · exact .none
    · cases h
      exact .none
    · cases h
  | run u =>
    simp only [Machine.act, machine, Act.thread] at h ⊢
    generalize s.loc u = pc at h
    cases pc with
    | idle | closed | exited => cases h
    | enqueue b' q =>
      obtain ⟨x, hx, heq⟩ := Option.map_eq_some_iff.mp h
      cases heq
      rw [inQueue_afterEnqueue]
      exact queueStep_run hx
    | tryDequeue site q =>
      obtain ⟨x, hx, heq⟩ := Option.map_eq_some_iff.mp h
      cases heq
      rw [inQueue_afterStep]
      exact queueStep_run hx
    | allocUnlock | task site ticket item =>
      cases h
      exact queueStep_begin (fun _ => rfl) rfl
    | stopLoad k =>
      cases h
      split
      · exact .none
      · exact queueStep_begin (fun _ => rfl) rfl
    | corr c =>
      cases h
      split
      · exact queueStep_begin (fun _ => rfl) rfl
      · exact .none
    | closeStore | releaseUnlock =>
      cases h
      exact .none
    | join i | allocLock | releaseLock =>
      simp only [run] at h
      repeat' split at h
      all_goals cases h
      all_goals exact .none

theorem inBucket_update : inBucket C b ⟨m', update s.loc u pc'⟩ =
      ⟨m'.tasks b, update (inBucket C b s).loc u (pc'.inQueue C u b)⟩ := by
  simp only [inBucket, Sys.mk.injEq, true_and]
  funext w
  by_cases hw : w = u
  · subst hw
    simp
  · simp [hw]

theorem bucket_reach (h : (machine C).Reach calm (fresh C) s) (b : Nat) :
    (MpmcQueue.machine C.queue).Reach Machine.free MpmcQueue.fresh (inBucket C b s) := by
  refine h.maps ?_ ?_
  · intro s hs
    obtain ⟨htasks, _, _, _, _, _, _, hloc⟩ := hs
    refine ⟨htasks b, fun u => ?_⟩
    simp only [inBucket, hloc]
    split <;> rfl
  · intro s a s' _ hs
    obtain ⟨⟨pc', m'⟩, hact, rfl⟩ := Option.map_eq_some_iff.mp hs
    have hq := act_queueStep hact b
    rw [inBucket_update]
    generalize pc'.inQueue C a.thread b = q', m'.tasks b = t' at hq
    cases hq with
    | none =>
      refine .inl ?_
      simp [inBucket]
    | call op h => exact .inr ⟨_, trivial, Machine.step_call h⟩
    | run h => exact .inr ⟨_, trivial, Machine.step_run h⟩

/-- What is known of the queues, from their own proofs. -/
structure QueuesOk (C : Config T) (s : Sys (Mem T) (Pc T)) : Prop where
  inv : ∀ b, MpmcQueue.Inv C.queue (s.mem.tasks b)
  knows : ∀ b u, MpmcQueue.Knows C.queue u ((s.loc u).inQueue C u b) (s.mem.tasks b)
  draws : ∀ b u, MpmcQueue.Draws u ((s.loc u).inQueue C u b) (s.mem.tasks b)

theorem queuesOk_of_reach (h : (machine C).Reach calm (fresh C) s) : QueuesOk C s where
  inv b := (MpmcQueue.holds_of_reach (bucket_reach h b)).1
  knows b := (MpmcQueue.holds_of_reach (bucket_reach h b)).2
  draws b := MpmcQueue.draws_of_reach (bucket_reach h b)

/-! ## What a `try_dequeue` does -/

/-- A program counter inside `try_dequeue`. -/
def trying : MpmcQueue.Pc T → Bool
  | .tryDequeue | .tryCheck _ | .tryCas _ | .tryReload _ | .dequeueClflush _ | .dequeueLoad _
  | .dequeueMove _ _ | .dequeueRelease _ _ => true
  | _ => false

theorem tailTicket_of_trying (h : trying q = true) : q.tailTicket = none := by
  cases q <;> first | rfl | cases h

/-- A step of `try_dequeue`: it returns an item, it returns without one, it has found that
the slot of its ticket has none, or it goes on. -/
inductive TryStep (C : MpmcQueue.Config T) (u : Nat) (q : MpmcQueue.Pc T) (m : MpmcQueue.Mem T) :
    MpmcQueue.Pc T → MpmcQueue.Mem T → Prop where
  | got {h : Nat} {item : T} {m' : MpmcQueue.Mem T} (hq : q = .dequeueRelease h item)
      (hret : m'.returned = m.returned ++ [(u, h, item)]) : TryStep C u q m .idle m'
  | empty {h : Nat} (hq : q = .tryReload h) (hhead : m.head = h) : TryStep C u q m .idle m
  | missed {h : Nat} (hturn : C.turn h * 2 + 1 ≠ MpmcQueue.slotTurn C m.slots h) :
      TryStep C u q m (.tryReload h) m
  | on {q' : MpmcQueue.Pc T} {m' : MpmcQueue.Mem T} (htrying : trying q' = true)
      (hne : ∀ h, q' ≠ .tryReload h) (hret : m'.returned = m.returned) : TryStep C u q m q' m'

variable {Q : MpmcQueue.Config T} {t : MpmcQueue.Mem T}

theorem run_trying (hq : trying q = true) (hr : MpmcQueue.run Q u q t = some (q', t')) :
    TryStep Q u q t q' t' ∧ t'.tail = t.tail := by
  have hfetch : ∀ h, trying (MpmcQueue.Pc.fetch Q h) = true ∧
      ∀ h', MpmcQueue.Pc.fetch Q h ≠ .tryReload h' := by
    intro h
    unfold MpmcQueue.Pc.fetch
    split <;> exact ⟨rfl, by simp⟩
  cases q with
  | tryDequeue | dequeueClflush h | dequeueLoad h | dequeueMove h item =>
    cases hr
    exact ⟨.on rfl (by simp) rfl, rfl⟩
  | tryCheck h =>
    simp only [MpmcQueue.run] at hr
    split at hr
    · cases hr
      exact ⟨.on rfl (by simp) rfl, rfl⟩
    · next hturn =>
      cases hr
      exact ⟨.missed hturn, rfl⟩
  | tryCas h =>
    simp only [MpmcQueue.run] at hr
    split at hr
    · cases hr
      exact ⟨.on (hfetch h).1 (hfetch h).2 rfl, rfl⟩
    · cases hr
      exact ⟨.on rfl (by simp) rfl, rfl⟩
  | tryReload h =>
    simp only [MpmcQueue.run] at hr
    split at hr
    · next hhead =>
      cases hr
      exact ⟨.empty rfl hhead, rfl⟩
    · cases hr
      exact ⟨.on rfl (by simp) rfl, rfl⟩
  | dequeueRelease h item =>
    cases hr
    exact ⟨.got rfl rfl, rfl⟩
  | _ => cases hq

/-- A program counter inside `enqueue`. -/
def storing : MpmcQueue.Pc T → Bool
  | .enqueue _ | .enqueueWait _ _ | .enqueueStore _ _ | .enqueueClwb _ _ | .enqueuePublish _ _ => true
  | _ => false

theorem headTicket_of_storing (h : storing q = true) : q.headTicket = none := by
  cases q <;> first | rfl | cases h

theorem run_storing (hq : storing q = true) (hr : MpmcQueue.run Q u q t = some (q', t')) :
    (q' = .idle ∨ storing q' = true) ∧ t'.returned = t.returned := by
  cases q with
  | enqueue item | enqueueClwb item i =>
    cases hr
    exact ⟨.inr rfl, rfl⟩
  | enqueueWait item i =>
    simp only [MpmcQueue.run] at hr
    split at hr <;>
    · cases hr
      exact ⟨.inr rfl, rfl⟩
  | enqueueStore item i =>
    cases hr
    split <;> exact ⟨.inr rfl, rfl⟩
  | enqueuePublish item i =>
    cases hr
    exact ⟨.inl rfl, rfl⟩
  | _ => cases hq

/-! ## The invariant -/

/-- Every ticket that was drawn was taken. -/
def Emptied (q : MpmcQueue.Mem T) : Prop := q.tail ≤ q.head

/-- The `i`-th bucket that worker `u` drains. -/
def Config.corr (C : Config T) (u i : Nat) : Nat := u % C.numBucket + i * C.numThreads

/-- Worker `u` has come to bucket `c`, past those it drains before. -/
def DrainedTo (C : Config T) (u c : Nat) (m : Mem T) : Prop :=
  m.stop = true ∧ ∃ j, c = C.corr u j ∧ ∀ i < j, Emptied (m.tasks (C.corr u i))

def Drained (C : Config T) (u : Nat) (m : Mem T) : Prop :=
  m.stop = true ∧ ∀ i, C.corr u i < C.numBucket → Emptied (m.tasks (C.corr u i))

def Site.At (C : Config T) (u : Nat) : Site → Mem T → Prop
  | .loop _, _ => True
  | .drain c, m => c < C.numBucket ∧ DrainedTo C u c m

/-- What a thread knows where it stands. -/
def Pc.At (C : Config T) (u : Nat) : Pc T → Mem T → Prop
  | .enqueue _ q, _ => storing q = true
  | .tryDequeue site q, m =>
    trying q = true ∧ site.At C u m ∧
      -- the slot of the head had no item, so the head has moved or is at the tail
      ∀ c h, site = .drain c → q = .tryReload h → h < (m.tasks c).tail → h < (m.tasks c).head
  | .task site _ _, m => site.At C u m
  | .corr c, m => DrainedTo C u c m
  | .releaseLock, m | .releaseUnlock, m => Drained C u m
  | .exited, m => Drained C u m ∧ m.exited u = true
  | .closeStore, m => m.closing = true
  | .join i, m => m.stop = true ∧ ∀ j < i, m.exited j = true
  | .closed, m => ∀ j < C.numThreads, m.exited j = true
  | _, _ => True

def Pc.works : Pc T → Bool
  | .allocLock | .allocUnlock | .tryDequeue _ _ | .task _ _ _ | .stopLoad _ | .corr _ | .releaseLock
  | .releaseUnlock | .exited => true
  | _ => false

structure Inv (m : Mem T) : Prop where
  stopped : m.stop = true → m.closing = true
  calm : m.closing = true → m.enqueuing = []
  executed : ∀ b h v, (b, h, v) ∈ m.executed → ∃ u, (u, h, v) ∈ (m.tasks b).returned
  once : m.ran.Nodup

structure Own (C : Config T) (u : Nat) (pc : Pc T) (m : Mem T) : Prop where
  works : pc.works = true ↔ u < C.numThreads
  enqueues : ∀ b q, pc = .enqueue b q → u ∈ m.enqueuing
  exits : m.exited u = true → pc = .exited
  /-- An item is run by the thread it was returned to. -/
  runs : ∀ b h v, (u, h, v) ∈ (m.tasks b).returned →
    (b, h, v) ∈ m.executed ∨ ∃ site, pc = .task site h v ∧ site.bucket C u = b
  fresh : ∀ site h v, pc = .task site h v →
    (u, h, v) ∈ (m.tasks (site.bucket C u)).returned ∧ (site.bucket C u, h) ∉ m.ran
  place : pc.At C u m

/-! ## What the others see of a step -/

structure Effect (C : Config T) (u : Nat) (m m' : Mem T) : Prop where
  stop : m.stop = true → m'.stop = true
  closing : m.closing = true → m'.closing = true
  exited : ∀ w, m.exited w = true → m'.exited w = true
  stays : ∀ w, w ≠ u → m'.exited w = true → m.exited w = true
  enqueuing : ∀ w, w ≠ u → w ∈ m.enqueuing → w ∈ m'.enqueuing
  kept : ∀ b x, x ∈ (m.tasks b).returned → x ∈ (m'.tasks b).returned
  returned : ∀ b w h v, w ≠ u → (w, h, v) ∈ (m'.tasks b).returned → (w, h, v) ∈ (m.tasks b).returned
  head : ∀ b, (m.tasks b).head ≤ (m'.tasks b).head
  tail : m.stop = true → ∀ b, (m'.tasks b).tail = (m.tasks b).tail
  executed : ∀ x, x ∈ m.executed → x ∈ m'.executed
  ran : ∀ b h, (b, h) ∈ m'.ran → (b, h) ∈ m.ran ∨ ∃ v, (u, h, v) ∈ (m.tasks b).returned

theorem Emptied.move (he : Effect C u m m') (hstop : m.stop = true) (h : Emptied (m.tasks b)) :
    Emptied (m'.tasks b) := by
  have h1 := he.head b
  have h2 := he.tail hstop b
  unfold Emptied at *
  omega

theorem DrainedTo.move {c : Nat} (he : Effect C u m m') (h : DrainedTo C w c m) : DrainedTo C w c m' := by
  obtain ⟨hstop, j, hc, hall⟩ := h
  exact ⟨he.stop hstop, j, hc, fun i hi => (hall i hi).move he hstop⟩

theorem Drained.move (he : Effect C u m m') (h : Drained C w m) : Drained C w m' :=
  ⟨he.stop h.1, fun i hi => (h.2 i hi).move he h.1⟩

theorem Site.At.move (he : Effect C u m m') (h : site.At C w m) : site.At C w m' := by
  cases site with
  | loop k => trivial
  | drain c => exact ⟨h.1, h.2.move he⟩

theorem Pc.At.move (he : Effect C u m m') (h : pc.At C w m) : pc.At C w m' := by
  cases pc with
  | enqueue b q => exact h
  | tryDequeue site q =>
    obtain ⟨hq, hsite, hreload⟩ := h
    refine ⟨hq, hsite.move he, ?_⟩
    rintro c k rfl hk htail
    obtain ⟨_, hdrained⟩ : c < C.numBucket ∧ DrainedTo C w c m := hsite
    have h1 := he.head c
    have h2 := he.tail hdrained.1 c
    have h3 := hreload c k rfl hk
    omega
  | task site k v => exact Site.At.move he h
  | corr c => exact DrainedTo.move he h
  | releaseLock | releaseUnlock => exact Drained.move he h
  | exited => exact ⟨h.1.move he, he.exited w h.2⟩
  | closeStore => exact he.closing h
  | join i => exact ⟨he.stop h.1, fun j hj => he.exited j (h.2 j hj)⟩
  | closed => exact fun j hj => he.exited j (h j hj)
  | _ => trivial

theorem returned_unique {q : MpmcQueue.Mem T} {h : Nat} {v v' : T} (hi : MpmcQueue.Inv C.queue q)
    (hu : (u, h, v) ∈ q.returned) (hw : (w, h, v') ∈ q.returned) : u = w := by
  have h1 := (hi.returned_item u h v hu).1
  have h2 := (hi.returned_item w h v' hw).1
  exact Option.some.inj (h1.symm.trans h2)

theorem Own.move (hq : ∀ b, MpmcQueue.Inv C.queue (m.tasks b)) (hw : w ≠ u) (h : Own C w pc m)
    (he : Effect C u m m') : Own C w pc m' where
  works := h.works
  enqueues b q hpc := he.enqueuing w hw (h.enqueues b q hpc)
  exits hx := h.exits (he.stays w hw hx)
  runs b k v hr := (h.runs b k v (he.returned b w k v hw hr)).imp_left (he.executed _)
  fresh site k v hpc := by
    obtain ⟨hr, hnot⟩ := h.fresh site k v hpc
    refine ⟨he.kept _ _ hr, fun hin => ?_⟩
    obtain hin | ⟨v', hr'⟩ := he.ran _ _ hin
    · exact hnot hin
    · exact hw (returned_unique (hq _) hr hr')
  place := h.place.move he

theorem move_head (h : MpmcQueue.Move Q u t t') : t.head ≤ t'.head := by
  cases h with
  | take => exact Nat.le_succ _
  | _ => exact le_rfl

theorem move_returned (h : MpmcQueue.Move Q u t t') :
    t'.returned = t.returned ∨ ∃ h v, t'.returned = t.returned ++ [(u, h, v)] := by
  cases h with
  | release hat => exact .inr ⟨_, _, rfl⟩
  | _ => exact .inl rfl

theorem setTasks_tasks (c : Nat) : (m.setTasks b t').tasks c = if c = b then t' else m.tasks c :=
  update_apply ..

/-- What holds of the bucket that is changed holds of all. -/
theorem setTasks_rel {P : MpmcQueue.Mem T → MpmcQueue.Mem T → Prop} (hrefl : ∀ t, P t t)
    (h : P (m.tasks b) t') (c : Nat) : P (m.tasks c) ((m.setTasks b t').tasks c) := by
  rw [setTasks_tasks]
  split
  · next hc =>
    subst hc
    exact h
  · exact hrefl _

theorem Effect.queue {e : List Nat} (hm : MpmcQueue.Move C.queue u (m.tasks b) t')
    (htail : m.stop = true → t'.tail = (m.tasks b).tail) (he : ∀ w, w ≠ u → w ∈ m.enqueuing → w ∈ e) :
    Effect C u m { m.setTasks b t' with enqueuing := e } := by
  refine ⟨id, id, fun _ => id, fun _ _ => id, he, fun c x => ?_, fun c w h v hw => ?_, ?_, fun hstop => ?_,
    fun _ => id, fun _ _ => .inl⟩
  · refine setTasks_rel (P := fun t t' => x ∈ t.returned → x ∈ t'.returned) (fun _ => id) (fun hx => ?_) c
    obtain hr | ⟨h, v, hr⟩ := move_returned hm
    · rwa [hr]
    · rw [hr]
      exact List.mem_append_left _ hx
  · refine setTasks_rel (P := fun t t' => (w, h, v) ∈ t'.returned → (w, h, v) ∈ t.returned) (fun _ => id)
      (fun hx => ?_) c
    obtain hr | ⟨h', v', hr⟩ := move_returned hm
    · rwa [hr] at hx
    · rw [hr] at hx
      obtain hx | hx := List.mem_append.mp hx
      · exact hx
      · cases List.mem_singleton.mp hx
        exact absurd rfl hw
  · exact setTasks_rel (P := fun t t' => t.head ≤ t'.head) (fun _ => le_rfl) (move_head hm)
  · exact setTasks_rel (P := fun t t' => t'.tail = t.tail) (fun _ => rfl) (htail hstop)

/-- A step that leaves the queues and what was run alone. -/
theorem Effect.quiet (htasks : m'.tasks = m.tasks) (hexecuted : m'.executed = m.executed)
    (hstop : m.stop = true → m'.stop = true) (hclosing : m.closing = true → m'.closing = true)
    (hexited : ∀ w, m.exited w = true → m'.exited w = true)
    (hstays : ∀ w, w ≠ u → m'.exited w = true → m.exited w = true)
    (henqueuing : ∀ w, w ≠ u → w ∈ m.enqueuing → w ∈ m'.enqueuing) : Effect C u m m' := by
  refine ⟨hstop, hclosing, hexited, hstays, henqueuing, ?_, ?_, ?_, ?_, ?_, ?_⟩
  · exact fun b x hx => htasks ▸ hx
  · exact fun b w h v _ hx => htasks ▸ hx
  · exact fun b => (congrArg (fun f => (f b).head) htasks).ge
  · exact fun _ b => congrArg (fun f => (f b).tail) htasks
  · exact fun x hx => hexecuted ▸ hx
  · exact fun b h hx => .inl (by rwa [Mem.ran, hexecuted] at hx)

/-! ## The steps of a thread -/

structure Stepped (C : Config T) (u : Nat) (m : Mem T) (pc' : Pc T) (m' : Mem T) : Prop where
  inv : Inv m'
  own : Own C u pc' m'
  effect : Effect C u m m'

theorem Own.goto (hi : Inv m) (h : Own C u pc m) (hpc : ∀ site k v, pc ≠ .task site k v)
    (hpc' : ∀ site k v, pc' ≠ .task site k v) (hworks : pc'.works = pc.works)
    (henq : ∀ b q, pc' = .enqueue b q → u ∈ m'.enqueuing) (hexits : m'.exited u = true → pc' = .exited)
    (htasks : m'.tasks = m.tasks) (hexecuted : m'.executed = m.executed)
    (hstopped : m'.stop = true → m'.closing = true) (hcalm : m'.closing = true → m'.enqueuing = [])
    (he : Effect C u m m') (hat : pc'.At C u m') : Stepped C u m pc' m' where
  inv :=
    { stopped := hstopped
      calm := hcalm
      executed := fun b k v hx => by
        rw [htasks]
        exact hi.executed b k v (hexecuted ▸ hx)
      once := by
        rw [Mem.ran, hexecuted]
        exact hi.once }
  own :=
    { works := hworks ▸ h.works
      enqueues := henq
      exits := hexits
      runs := fun b k v hr => by
        rw [htasks] at hr
        rw [hexecuted]
        exact .inl ((h.runs b k v hr).resolve_right fun ⟨site, hs, _⟩ => hpc site k v hs)
      fresh := fun site k v hs => absurd hs (hpc' site k v)
      place := hat }
  effect := he

/-- A step of a worker, or of `close`, that is outside the queues. -/
theorem Own.stay {x : Option Nat} (hi : Inv m) (h : Own C u pc m) (hpc : ∀ site k v, pc ≠ .task site k v)
    (hexited : pc ≠ .exited) (hpc' : ∀ site k v, pc' ≠ .task site k v)
    (henq : ∀ b q, pc' ≠ .enqueue b q) (hworks : pc'.works = pc.works) (hat : pc'.At C u m) :
    Stepped C u m pc' { m with configTaskMutex := x } := by
  have he : Effect C u m { m with configTaskMutex := x } :=
    .quiet rfl rfl id id (fun _ => id) (fun _ _ => id) fun _ _ => id
  exact h.goto hi hpc hpc' hworks (fun b q hx => absurd hx (henq b q))
    (fun hx => absurd (h.exits hx) hexited) rfl rfl hi.stopped hi.calm he (hat.move he)

theorem Own.runTask {k : Nat} {v : T} (hi : Inv m) (h : Own C u (.task site k v) m) :
    Stepped C u m (.tryDequeue site .tryDequeue)
      { m with executed := m.executed ++ [(site.bucket C u, k, v)] } := by
  obtain ⟨hret, hnot⟩ := h.fresh site k v rfl
  have hran : Mem.ran { m with executed := m.executed ++ [(site.bucket C u, k, v)] } =
      m.ran ++ [(site.bucket C u, k)] := by
    simp [Mem.ran]
  have he : Effect C u m { m with executed := m.executed ++ [(site.bucket C u, k, v)] } := by
    refine ⟨id, id, fun _ => id, fun _ _ => id, fun _ _ => id, fun _ _ => id, fun _ _ _ _ _ => id,
      fun _ => le_rfl, fun _ _ => rfl, fun x hx => List.mem_append_left _ hx, ?_⟩
    intro b i hin
    rw [hran] at hin
    obtain hin | hin := List.mem_append.mp hin
    · exact .inl hin
    · cases List.mem_singleton.mp hin
      exact .inr ⟨v, hret⟩
  refine ⟨⟨hi.stopped, hi.calm, ?_, ?_⟩, ⟨iff_of_true rfl (h.works.mp rfl), nofun, ?_, ?_, nofun, ?_⟩, he⟩
  · intro b i x hx
    obtain hx | hx := List.mem_append.mp hx
    · exact hi.executed b i x hx
    · cases List.mem_singleton.mp hx
      exact ⟨u, hret⟩
  · rw [hran]
    exact List.nodup_append.mpr ⟨hi.once, List.nodup_singleton _,
      fun a ha c hc heq => hnot ((heq.trans (List.mem_singleton.mp hc)) ▸ ha)⟩
  · exact fun hx => nomatch h.exits hx
  · intro b i x hx
    refine .inl ?_
    obtain hin | ⟨site', hs, hb⟩ := h.runs b i x hx
    · exact List.mem_append_left _ hin
    · cases hs
      subst hb
      exact List.mem_append_right _ (List.mem_singleton_self _)
  · exact ⟨rfl, Site.At.move he h.place, nofun⟩

section Queue

variable {q q' : MpmcQueue.Pc T} {t' : MpmcQueue.Mem T}

theorem Inv.queue {e : List Nat} (hi : Inv m)
    (he : Effect C u m { m.setTasks b t' with enqueuing := e })
    (hcalm : m.closing = true → e = []) : Inv { m.setTasks b t' with enqueuing := e } where
  stopped := hi.stopped
  calm := hcalm
  executed c k v hx := by
    obtain ⟨w, hw⟩ := hi.executed c k v hx
    exact ⟨w, he.kept c _ hw⟩
  once := hi.once

theorem Own.enqueueStep (hi : Inv m) (h : Own C u (.enqueue b q) m)
    (hm : MpmcQueue.Move C.queue u (m.tasks b) t')
    (hr : MpmcQueue.run C.queue u q (m.tasks b) = some (q', t')) :
    Stepped C u m (afterEnqueue b q')
      { m.setTasks b t' with enqueuing := stillEnqueuing u m.enqueuing q' } := by
  have hin := h.enqueues b q rfl
  have hopen : m.closing = true → False := by
    intro hc
    rw [hi.calm hc] at hin
    cases hin
  obtain ⟨hq', hret⟩ := run_storing h.place hr
  have he : Effect C u m { m.setTasks b t' with enqueuing := stillEnqueuing u m.enqueuing q' } := by
    refine .queue hm (fun hs => (hopen (hi.stopped hs)).elim) ?_
    intro w hw hwin
    unfold stillEnqueuing
    split
    · exact (List.mem_erase_of_ne hw).mpr hwin
    · exact hwin
  have htask : ∀ site k v, afterEnqueue b q' ≠ .task site k v := by
    cases q' <;> exact nofun
  refine ⟨hi.queue he fun hc => (hopen hc).elim, ?_, he⟩
  refine ⟨?_, ?_, ?_, ?_, fun site k v hs => absurd hs (htask site k v), ?_⟩
  · refine (iff_of_eq (congrArg (· = true) ?_)).trans h.works
    cases q' <;> rfl
  · intro c x hx
    show u ∈ stillEnqueuing u m.enqueuing q'
    cases q' <;> first | exact hin | cases hx
  · exact fun hx => nomatch h.exits hx
  · intro c k v hx
    refine .inl ?_
    have hold : ((m.setTasks b t').tasks c).returned = (m.tasks c).returned :=
      setTasks_rel (P := fun t t' => t'.returned = t.returned) (fun _ => rfl) hret c
    exact (h.runs c k v (hold ▸ hx)).resolve_right nofun
  · obtain rfl | hq' := hq'
    · trivial
    · cases q' <;> first | exact hq' | cases hq'

/-- Where no enqueue runs, a ticket that was drawn is ready or was fetched. -/
theorem missed_taken (hi : MpmcQueue.Inv C.queue t') (hpub : ∀ k < t'.tail, k ∈ t'.published) {h : Nat}
    (hturn : C.queue.turn h * 2 + 1 ≠ MpmcQueue.slotTurn C.queue t'.slots h) (hh : h < t'.tail) :
    h < t'.head := by
  by_contra hno
  have hf : h ∉ t'.fetched := fun hf => hno (hi.fetched_lt h hf)
  exact hturn (hi.ready h (hpub h hh) hf).symm

theorem Own.tryOn {site : Site} (hi : Inv m) (h : Own C u (.tryDequeue site q) m)
    (he : Effect C u m (m.setTasks (site.bucket C u) t'))
    (hret : t'.returned = (m.tasks (site.bucket C u)).returned)
    (hpc' : ∀ s k v, pc' ≠ .task s k v) (henq : ∀ b x, pc' ≠ .enqueue b x) (hworks : pc'.works = true)
    (hat : pc'.At C u (m.setTasks (site.bucket C u) t')) :
    Stepped C u m pc' (m.setTasks (site.bucket C u) t') where
  inv := hi.queue he hi.calm
  own :=
    { works := iff_of_true hworks (h.works.mp rfl)
      enqueues := fun b x hx => absurd hx (henq b x)
      exits := fun hx => nomatch h.exits hx
      runs := fun c k v hx => by
        have hold : ((m.setTasks (site.bucket C u) t').tasks c).returned = (m.tasks c).returned :=
          setTasks_rel (P := fun t t' => t'.returned = t.returned) (fun _ => rfl) hret c
        exact .inl ((h.runs c k v (hold ▸ hx)).resolve_right nofun)
      fresh := fun s k v hs => absurd hs (hpc' s k v)
      place := hat }
  effect := he

theorem Own.tryGot {site : Site} {k : Nat} {v : T} (hi : Inv m)
    (h : Own C u (.tryDequeue site (.dequeueRelease k v)) m)
    (he : Effect C u m (m.setTasks (site.bucket C u) t'))
    (hk : MpmcQueue.Knows C.queue u (.dequeueRelease k v) (m.tasks (site.bucket C u)))
    (hret : t'.returned = (m.tasks (site.bucket C u)).returned ++ [(u, k, v)]) :
    Stepped C u m (.task site k v) (m.setTasks (site.bucket C u) t') where
  inv := hi.queue he hi.calm
  own :=
    { works := iff_of_true rfl (h.works.mp rfl)
      enqueues := nofun
      exits := fun hx => nomatch h.exits hx
      runs := fun c k' v' hx => by
        rw [setTasks_tasks] at hx
        split at hx
        · next hc =>
          subst hc
          rw [hret] at hx
          obtain hx | hx := List.mem_append.mp hx
          · exact .inl ((h.runs _ k' v' hx).resolve_right nofun)
          · cases List.mem_singleton.mp hx
            exact .inr ⟨site, rfl, rfl⟩
        · exact .inl ((h.runs c k' v' hx).resolve_right nofun)
      fresh := fun s k' v' hs => by
        cases hs
        constructor
        · rw [setTasks_tasks, if_pos rfl, hret]
          exact List.mem_append_right _ (List.mem_singleton_self _)
        · intro hin
          obtain ⟨⟨b, k', v'⟩, hx, heq⟩ := List.mem_map.mp hin
          cases heq
          obtain ⟨w, hw⟩ := hi.executed _ _ _ hx
          exact hk.1.1.unserved (List.mem_map.mpr ⟨_, hw, rfl⟩)
      place := Site.At.move he h.place.2.1 }
  effect := he

theorem Own.tryStep {site : Site} (hi : Inv m) (h : Own C u (.tryDequeue site q) m)
    (hqi : MpmcQueue.Inv C.queue (m.tasks (site.bucket C u)))
    (hk : MpmcQueue.Knows C.queue u q (m.tasks (site.bucket C u)))
    (hpub : m.stop = true → ∀ k < (m.tasks (site.bucket C u)).tail,
      k ∈ (m.tasks (site.bucket C u)).published)
    (hr : MpmcQueue.run C.queue u q (m.tasks (site.bucket C u)) = some (q', t')) :
    Stepped C u m (afterStep C site q q') (m.setTasks (site.bucket C u) t') := by
  obtain ⟨htrying, hsite, hreload⟩ := h.place
  obtain ⟨hstep, htail⟩ := run_trying htrying hr
  have he : Effect C u m (m.setTasks (site.bucket C u) t') :=
    .queue (MpmcQueue.run_move hqi hk hr).1 (fun _ => htail) fun _ _ => id
  have hsite' := hsite.move he
  cases hstep with
  | got hq hret =>
    subst hq
    exact h.tryGot hi he hk hret
  | @empty k hq hhead =>
    subst hq
    cases site with
    | loop i => exact h.tryOn hi he rfl nofun nofun rfl trivial
    | drain c =>
      refine h.tryOn hi he rfl nofun nofun rfl ?_
      obtain ⟨_, hstop, j, hc, hall⟩ := hsite'
      refine ⟨hstop, j + 1, ?_, ?_⟩
      · rw [hc]
        simp only [Config.corr]
        rw [Nat.succ_mul]
        omega
      · intro i hij
        by_cases hi' : i < j
        · exact hall i hi'
        · obtain rfl : i = j := by omega
          rw [← hc, setTasks_tasks]
          have := hreload c k rfl rfl
          simp only [Site.bucket, if_true] at hhead ⊢
          rw [Emptied]
          omega
  | @missed k hturn =>
    refine h.tryOn hi he rfl nofun nofun rfl ⟨rfl, hsite', ?_⟩
    rintro c k' rfl hk' hlt
    cases hk'
    simp only [Site.bucket, setTasks_tasks, if_true] at hlt ⊢
    exact missed_taken hqi (hpub hsite.2.1) hturn hlt
  | on htrying' hne hret =>
    have hpc' : afterStep C site q q' = .tryDequeue site q' := by
      cases q' <;> first | rfl | cases htrying'
    rw [hpc']
    exact h.tryOn hi he hret nofun nofun rfl ⟨htrying', hsite', fun c k _ hk' => absurd hk' (hne k)⟩

end Queue

theorem published_of_calm (hq : QueuesOk C s) (hown : ∀ u, Own C u (s.loc u) s.mem)
    (hcalm : s.mem.enqueuing = []) (b : Nat) :
    ∀ k < (s.mem.tasks b).tail, k ∈ (s.mem.tasks b).published := by
  intro k hk
  by_contra hno
  rw [← (hq.inv b).drawn_length] at hk
  obtain ⟨⟨w, item⟩, hdrawn⟩ : ∃ x, (s.mem.tasks b).drawn[k]? = some x :=
    ⟨_, List.getElem?_eq_getElem hk⟩
  -- its enqueue runs, and that is in no other place of the pool
  have hticket := hq.draws b w k item hdrawn hno
  have hw := hown w
  cases hpc : s.loc w with
  | enqueue b' q =>
    have hin := hw.enqueues b' q hpc
    rw [hcalm] at hin
    cases hin
  | tryDequeue site q =>
    rw [hpc] at hticket hw
    have htrying := hw.place.1
    simp only [Pc.inQueue] at hticket
    split at hticket
    · exact nomatch (tailTicket_of_trying htrying).symm.trans hticket
    · cases hticket
  | _ =>
    rw [hpc] at hticket
    cases hticket

theorem DrainedTo.drained {c : Nat} (h : DrainedTo C u c m) (hc : ¬ c < C.numBucket) : Drained C u m := by
  obtain ⟨hstop, j, rfl, hall⟩ := h
  refine ⟨hstop, fun i hi => hall i ?_⟩
  by_contra hij
  have : j * C.numThreads ≤ i * C.numThreads := Nat.mul_le_mul_right _ (by omega)
  simp only [Config.corr] at hi hc
  omega

theorem call_own {op : Op T} (hi : Inv m) (h : Own C u pc m) (hcalm : calm s (.call u op)) (hm : s.mem = m)
    (hact : call C u op pc m = some (pc', m')) : Stepped C u m pc' m' := by
  subst hm
  unfold call at hact
  split at hact
  · cases hact
    have hopen : s.mem.closing = false := hcalm
    refine h.goto hi nofun nofun rfl ?_ ?_ rfl rfl hi.stopped ?_ ?_ rfl
    · exact fun _ _ _ => .head _
    · exact fun hx => nomatch h.exits hx
    · exact fun hc => nomatch hopen.symm.trans hc
    · exact .quiet rfl rfl id id (fun _ => id) (fun _ _ => id) fun w _ => List.mem_cons_of_mem _
  · cases hact
    refine h.goto hi nofun nofun rfl nofun ?_ rfl rfl (fun _ => rfl) (fun _ => hcalm.2) ?_ rfl
    · exact fun hx => nomatch h.exits hx
    · exact .quiet rfl rfl id (fun _ => rfl) (fun _ => id) (fun _ _ => id) fun _ _ => id
  · cases hact

theorem run_own (hs : Machine.Holds Inv (Own C) s) (hq : QueuesOk C s)
    (hr : run C u (s.loc u) s.mem = some (pc', m')) : Stepped C u s.mem pc' m' := by
  obtain ⟨hi, hown⟩ := hs
  have h := hown u
  have hknows := fun b => hq.knows b u
  generalize s.loc u = pc at hr h hknows
  cases pc with
  | idle | closed | exited => cases hr
  | enqueue b q =>
    obtain ⟨x, hx, heq⟩ := Option.map_eq_some_iff.mp hr
    cases heq
    have hk := hknows b
    simp only [Pc.inQueue, if_true] at hk
    exact h.enqueueStep hi (MpmcQueue.run_move (hq.inv b) hk hx).1 hx
  | tryDequeue site q =>
    obtain ⟨x, hx, heq⟩ := Option.map_eq_some_iff.mp hr
    cases heq
    have hk := hknows (site.bucket C u)
    simp only [Pc.inQueue, if_true] at hk
    refine h.tryStep hi (hq.inv _) hk ?_ hx
    exact fun hstop => published_of_calm hq hown (hi.calm (hi.stopped hstop)) _
  | task site k v =>
    cases hr
    exact h.runTask hi
  | allocLock | releaseLock =>
    simp only [run] at hr
    split at hr
    · cases hr
      exact h.stay hi nofun nofun nofun nofun rfl h.place
    · cases hr
  | allocUnlock =>
    cases hr
    exact h.stay hi nofun nofun nofun nofun rfl ⟨rfl, trivial, nofun⟩
  | stopLoad k =>
    cases hr
    split
    · next hstop => exact h.stay hi nofun nofun nofun nofun rfl ⟨hstop, 0, by simp [Config.corr], nofun⟩
    · exact h.stay hi nofun nofun nofun nofun rfl ⟨rfl, trivial, nofun⟩
  | corr c =>
    cases hr
    split
    · next hc => exact h.stay hi nofun nofun nofun nofun rfl ⟨rfl, ⟨hc, h.place⟩, nofun⟩
    · next hc => exact h.stay hi nofun nofun nofun nofun rfl (DrainedTo.drained h.place hc)
  | closeStore =>
    cases hr
    refine h.goto hi nofun nofun rfl nofun (fun hx => nomatch h.exits hx) rfl rfl (fun _ => h.place)
      hi.calm ?_ ⟨rfl, nofun⟩
    exact .quiet rfl rfl (fun _ => rfl) id (fun _ => id) (fun _ _ => id) fun _ _ => id
  | join i =>
    simp only [run] at hr
    split at hr
    · split at hr
      · next hx =>
        cases hr
        refine h.stay hi nofun nofun nofun nofun rfl ⟨h.place.1, ?_⟩
        intro j hj
        obtain hj | rfl := Nat.lt_succ_iff_lt_or_eq.mp hj
        · exact h.place.2 j hj
        · exact hx
      · cases hr
    · next hi' =>
      cases hr
      refine h.stay hi nofun nofun nofun nofun rfl ?_
      exact fun j hj => h.place.2 j (by omega)
  | releaseUnlock =>
    cases hr
    have he : Effect C u s.mem { s.mem with
        configTaskMutex := none, exited := update s.mem.exited u true } := by
      refine .quiet rfl rfl id id ?_ ?_ fun _ _ => id
      · intro w hw
        show update s.mem.exited u true w = true
        rw [update_apply]
        split
        · rfl
        · exact hw
      · intro w hw hx
        change update s.mem.exited u true w = true at hx
        rwa [update_of_ne hw] at hx
    exact h.goto hi nofun nofun rfl nofun (fun _ => rfl) rfl rfl hi.stopped hi.calm he
      ⟨Drained.move he h.place, update_self ..⟩

theorem holds_of_reach (h : (machine C).Reach calm (fresh C) s) : Machine.Holds Inv (Own C) s := by
  refine (h.and fun s hs => queuesOk_of_reach hs).invariant ?_ ?_
  · intro s hs
    obtain ⟨htasks, hstop, _, hexited, henq, hclosing, hexec, hloc⟩ := hs
    have hret : ∀ b, (s.mem.tasks b).returned = [] := by
      intro b
      obtain ⟨v, hv⟩ := htasks b
      rw [hv]
      rfl
    refine ⟨⟨?_, fun _ => henq, ?_, ?_⟩, fun u => ?_⟩
    · simp [hstop]
    · simp [hexec]
    · simp [Mem.ran, hexec]
    · rw [hloc u]
      refine ⟨?_, ?_, ?_, ?_, ?_, ?_⟩
      · split <;> simp [Pc.works, *]
      · split <;> simp
      · simp [hexited]
      · simp [hret]
      · split <;> simp
      · split <;> trivial
  · intro s a pc' m' hs hK hact
    obtain ⟨hcalm, hq⟩ := hK
    have hstep : Stepped C a.thread s.mem pc' m' := by
      cases a with
      | call u op => exact call_own hs.1 (hs.2 u) hcalm rfl hact
      | run u => exact run_own hs hq hact
    exact ⟨hstep.inv, hstep.own, fun w hw => (hs.2 w).move hq.inv hw hstep.effect⟩

/-! ## The result -/

/-- Each bucket is drained by the worker of its residue. -/
theorem covered (C : Config T) (hb : b < C.numBucket) :
    ∃ u < C.numThreads, ∃ i, C.corr u i = b := by
  by_cases hlt : b < C.numThreads
  · exact ⟨b, hlt, 0, by simp [Config.corr, Nat.mod_eq_of_lt hb]⟩
  · have hmod := Nat.mod_lt b C.threads_pos
    refine ⟨b % C.numThreads, hmod, b / C.numThreads, ?_⟩
    rw [Config.corr, Nat.mod_eq_of_lt (by omega), Nat.mul_comm]
    exact Nat.mod_add_div ..

theorem Own.exited_of_works (h : Own C u (s.loc u) s.mem) (hall : ∀ j < C.numThreads, s.mem.exited j = true)
    (hworks : (s.loc u).works = true) : s.loc u = .exited :=
  h.exits (hall u (h.works.mp hworks))

/-- When every worker has ended, every item that was taken was run. -/
theorem executed_of_taken {k : Nat} {v : T} (hs : Machine.Holds Inv (Own C) s) (hq : QueuesOk C s)
    (hall : ∀ j < C.numThreads, s.mem.exited j = true) (htaken : k < (s.mem.tasks b).head)
    (hdrawn : (s.mem.tasks b).drawn[k]? = some (w, v)) : (b, k, v) ∈ s.mem.executed := by
  obtain ⟨hi, hown⟩ := hs
  have hqi := hq.inv b
  obtain ⟨u, htook⟩ : ∃ u, (s.mem.tasks b).taken[k]? = some u :=
    ⟨_, List.getElem?_eq_getElem (by rw [hqi.taken_length]; exact htaken)⟩
  have hserved : k ∈ (s.mem.tasks b).served := by
    by_contra hno
    have hticket := (hq.knows b u).2 k htook hno
    have hexited := (hown u).exited_of_works hall
    have hplace := (hown u).place
    cases hpc : s.loc u with
    | tryDequeue site q =>
      rw [hpc] at hexited
      cases hexited rfl
    | enqueue b' q =>
      rw [hpc] at hticket hplace
      simp only [Pc.inQueue] at hticket
      split at hticket
      · exact nomatch (headTicket_of_storing hplace).symm.trans hticket
      · cases hticket
    | _ =>
      rw [hpc] at hticket
      cases hticket
  obtain ⟨⟨u', k', v'⟩, hret, rfl⟩ := List.mem_map.mp hserved
  obtain ⟨_, w', hdrawn'⟩ := hqi.returned_item u' k' v' hret
  obtain rfl : v' = v := congrArg Prod.snd (Option.some.inj (hdrawn'.symm.trans hdrawn))
  refine ((hown u').runs b k' v' hret).resolve_right ?_
  intro ⟨site, hpc, _⟩
  have hexited := (hown u').exited_of_works hall
  rw [hpc] at hexited
  cases hexited rfl

/-! ## `close` can return

Every worker can be run to its end by itself, once whoever has the mutex has let go of it:
a `try_dequeue` that nobody disturbs gets an item or returns, and there are only so many
items. -/

/-- The thread has the mutex. -/
def Pc.locks : Pc T → Bool
  | .allocUnlock | .releaseUnlock => true
  | _ => false

/-- What a step does to the mutex. -/
inductive MutexStep (u : Nat) (m : Mem T) (pc : Pc T) (m' : Mem T) (pc' : Pc T) : Prop where
  | kept (heq : m'.configTaskMutex = m.configTaskMutex) (hpc : pc.locks = false)
  | unlock (heq : m'.configTaskMutex = none)
  | lock (heq : m'.configTaskMutex = some u) (hpc' : pc'.locks = true)

theorem act_mutex {a : Act (Op T)} (h : (machine C).act s a = some (pc', m')) :
    MutexStep a.thread s.mem (s.loc a.thread) m' pc' := by
  cases a with
  | call u op =>
    simp only [Machine.act, machine, Act.thread] at h ⊢
    generalize s.loc u = pc at h
    unfold call at h
    split at h
    · cases h
      exact .kept rfl rfl
    · cases h
      exact .kept rfl rfl
    · cases h
  | run u =>
    simp only [Machine.act, machine, Act.thread] at h ⊢
    generalize s.loc u = pc at h
    cases pc with
    | idle | closed | exited => cases h
    | enqueue b q | tryDequeue site q =>
      obtain ⟨x, _, heq⟩ := Option.map_eq_some_iff.mp h
      cases heq
      exact .kept rfl rfl
    | closeStore | task site k v | stopLoad k | corr c =>
      cases h
      exact .kept rfl rfl
    | join i =>
      simp only [run] at h
      repeat' split at h
      all_goals cases h
      all_goals exact .kept rfl rfl
    | allocLock | releaseLock =>
      simp only [run] at h
      split at h
      · cases h
        exact .lock rfl rfl
      · cases h
    | allocUnlock | releaseUnlock =>
      cases h
      exact .unlock rfl

theorem locks_of_reach (h : (machine C).Reach calm (fresh C) s) :
    ∀ u, s.mem.configTaskMutex = some u → (s.loc u).locks = true := by
  suffices hholds : Machine.Holds (fun _ => True)
      (fun u pc m => m.configTaskMutex = some u → pc.locks = true) s from hholds.2
  refine h.invariant ?_ ?_
  · intro s hs
    obtain ⟨_, _, hnone, _⟩ := hs
    exact ⟨trivial, fun u hu => nomatch hnone.symm.trans hu⟩
  · intro s a pc' m' hs _ hact
    refine ⟨trivial, ?_, ?_⟩
    · intro hu
      cases act_mutex hact with
      | kept heq hpc => exact nomatch hpc.symm.trans (hs.2 _ (heq ▸ hu))
      | unlock heq => exact nomatch heq.symm.trans hu
      | lock _ hpc' => exact hpc'
    · intro w hw hmutex
      cases act_mutex hact with
      | kept heq _ => exact hs.2 w (heq ▸ hmutex)
      | unlock heq => exact nomatch heq.symm.trans hmutex
      | lock heq _ => exact absurd (Option.some.inj (hmutex.symm.trans heq)) hw

/-- What a worker has before it, once `stop` is set: the places it comes to, -/
def Pc.stage (C : Config T) : Pc T → Nat
  | .allocLock => 2 * C.numBucket + 8
  | .allocUnlock => 2 * C.numBucket + 7
  | .tryDequeue (.loop _) _ | .task (.loop _) _ _ => 2 * C.numBucket + 6
  | .stopLoad _ => 2 * C.numBucket + 5
  | .corr c => 2 * (C.numBucket - c) + 4
  | .tryDequeue (.drain c) _ | .task (.drain c) _ _ => 2 * (C.numBucket - c) + 3
  | .releaseLock => 2
  | .releaseUnlock => 1
  | _ => 0

/-- the items of the bucket where it is, -/
def Pc.items (C : Config T) (u : Nat) : Pc T → Mem T → Nat
  | .tryDequeue site _, m | .task site _ _, m =>
    (m.tasks (site.bucket C u)).tail - (m.tasks (site.bucket C u)).head
  | _, _ => 0

/-- and the accesses of `try_dequeue`. One with a ticket that is not the head any more has
to look at its slot again. -/
def accesses (head : Nat) : MpmcQueue.Pc T → Nat
  | .tryCas h | .tryReload h => if head = h then 1 else 3
  | .tryCheck h => if head = h then 2 else 4
  | .tryDequeue => 5
  | .dequeueRelease _ _ => 7
  | .dequeueMove _ _ => 8
  | .dequeueLoad _ => 9
  | .dequeueClflush _ => 10
  | _ => 0

def Pc.accesses (C : Config T) (u : Nat) : Pc T → Mem T → Nat
  | .tryDequeue site q, m => ThreadPool.accesses (m.tasks (site.bucket C u)).head q
  | .task _ _ _, _ => 6
  | .allocLock, m | .releaseLock, m => if m.configTaskMutex = none then 0 else 1
  | _, _ => 0

def rank (C : Config T) (u : Nat) (pc : Pc T) (m : Mem T) : Nat × Nat × Nat :=
  (pc.stage C, pc.items C u m, pc.accesses C u m)

def Less : Nat × Nat × Nat → Nat × Nat × Nat → Prop := Prod.Lex (· < ·) (Prod.Lex (· < ·) (· < ·))

theorem less_wf : WellFounded Less :=
  WellFounded.prod_lex Nat.lt_wfRel.wf (WellFounded.prod_lex Nat.lt_wfRel.wf Nat.lt_wfRel.wf)

theorem less_of_stage (h : pc'.stage C < pc.stage C) : Less (rank C u pc' m') (rank C u pc m) :=
  .left _ _ h

theorem less_of_items (hstage : pc'.stage C = pc.stage C) (h : pc'.items C u m' < pc.items C u m) :
    Less (rank C u pc' m') (rank C u pc m) := by
  rw [rank, rank, hstage]
  exact .right _ (.left _ _ h)

theorem less_of_accesses (hstage : pc'.stage C = pc.stage C) (hitems : pc'.items C u m' = pc.items C u m)
    (h : pc'.accesses C u m' < pc.accesses C u m) : Less (rank C u pc' m') (rank C u pc m) := by
  rw [rank, rank, hstage, hitems]
  exact .right _ (.right _ h)

theorem stage_site : (Pc.tryDequeue site q').stage C = (Pc.tryDequeue site q).stage C := by
  cases site <;> rfl

section Trying

variable {site : Site} {q q' : MpmcQueue.Pc T} {t' : MpmcQueue.Mem T}

theorem less_of_try (htail : t'.tail = (m.tasks (site.bucket C u)).tail)
    (hhead : t'.head = (m.tasks (site.bucket C u)).head)
    (h : accesses (m.tasks (site.bucket C u)).head q' < accesses (m.tasks (site.bucket C u)).head q) :
    Less (rank C u (.tryDequeue site q') (m.setTasks (site.bucket C u) t'))
      (rank C u (.tryDequeue site q) m) := by
  refine less_of_accesses stage_site ?_ ?_
  · simp [Pc.items, setTasks_tasks, htail, hhead]
  · simpa [Pc.accesses, setTasks_tasks, hhead] using h

theorem head_lt_of_turn {Q : MpmcQueue.Config T} {t : MpmcQueue.Mem T} (hqi : MpmcQueue.Inv Q t)
    (hturn : Q.turn t.head * 2 + 1 ≤ MpmcQueue.slotTurn Q t.slots t.head) : t.head < t.tail := by
  have hearly := hqi.head_early t.head le_rfl
  exact hqi.stored_lt _ (hqi.invited _ (by omega))

theorem run_try_less (htrying : trying q = true) (hsite : site.At C u m)
    (hqi : MpmcQueue.Inv C.queue (m.tasks (site.bucket C u)))
    (hk : MpmcQueue.Knows C.queue u q (m.tasks (site.bucket C u))) :
    ∃ pc' m', run C u (.tryDequeue site q) m = some (pc', m') ∧
      Less (rank C u pc' m') (rank C u (.tryDequeue site q) m) := by
  have hrun : ∀ q' t', MpmcQueue.run C.queue u q (m.tasks (site.bucket C u)) = some (q', t') →
      run C u (.tryDequeue site q) m =
        some (afterStep C site q q', m.setTasks (site.bucket C u) t') := by
    intro q' t' h
    simp only [run, h, Option.map_some]
  cases q with
  | tryDequeue | dequeueClflush h | dequeueLoad h | dequeueMove h item =>
    exact ⟨_, _, hrun _ _ rfl, less_of_try rfl rfl (by simp [accesses])⟩
  | dequeueRelease h item =>
    refine ⟨_, _, hrun _ _ rfl, less_of_accesses ?_ ?_ ?_⟩
    · cases site <;> rfl
    · simp [afterStep, Pc.items, setTasks_tasks, MpmcQueue.Mem.setTurn]
    · simp [afterStep, Pc.accesses, accesses]
  | tryCheck h =>
    by_cases hturn : C.queue.turn h * 2 + 1 =
        ((m.tasks (site.bucket C u)).slots (C.queue.idx h)).turn
    · refine ⟨_, _, hrun _ _ (if_pos hturn), less_of_try rfl rfl ?_⟩
      simp only [accesses]
      split <;> omega
    · refine ⟨_, _, hrun _ _ (if_neg hturn), less_of_try rfl rfl ?_⟩
      simp only [accesses]
      split <;> omega
  | tryCas h =>
    by_cases hhead : (m.tasks (site.bucket C u)).head = h
    · refine ⟨_, _, hrun _ _ (if_pos hhead), ?_⟩
      have hlt := head_lt_of_turn hqi (hhead ▸ hk.1)
      have hpc : afterStep C site (.tryCas h) (MpmcQueue.Pc.fetch C.queue h) =
          .tryDequeue site (MpmcQueue.Pc.fetch C.queue h) := by
        unfold MpmcQueue.Pc.fetch
        split <;> rfl
      rw [hpc]
      refine less_of_items stage_site ?_
      simp only [Pc.items, setTasks_tasks, if_true]
      omega
    · refine ⟨_, _, hrun _ _ (if_neg hhead), less_of_try rfl rfl ?_⟩
      simp [accesses, hhead]
  | tryReload h =>
    by_cases hhead : (m.tasks (site.bucket C u)).head = h
    · refine ⟨_, _, hrun _ _ (if_pos hhead), less_of_stage ?_⟩
      cases site with
      | loop k => simp [afterStep, Pc.stage]
      | drain c =>
        have hc := hsite.1
        have hpos := C.threads_pos
        simp only [afterStep, Pc.stage]
        omega
    · refine ⟨_, _, hrun _ _ (if_neg hhead), less_of_try rfl rfl ?_⟩
      simp [accesses, hhead]
  | _ => cases htrying

end Trying

theorem run_less (hs : Machine.Holds Inv (Own C) s) (hq : QueuesOk C s) (hstop : s.mem.stop = true)
    (hworks : (s.loc u).works = true) (hpc : s.loc u ≠ .exited)
    (hfree : s.loc u = .allocLock ∨ s.loc u = .releaseLock → s.mem.configTaskMutex = none) :
    ∃ pc' m', run C u (s.loc u) s.mem = some (pc', m') ∧
      Less (rank C u pc' m') (rank C u (s.loc u) s.mem) := by
  have hown := hs.2 u
  have hk := fun b => hq.knows b u
  generalize s.loc u = pc at *
  cases pc with
  | allocLock => exact ⟨_, _, if_pos (hfree (.inl rfl)), less_of_stage (by simp [Pc.stage])⟩
  | releaseLock => exact ⟨_, _, if_pos (hfree (.inr rfl)), less_of_stage (by simp [Pc.stage])⟩
  | allocUnlock | releaseUnlock => exact ⟨_, _, rfl, less_of_stage (by simp [Pc.stage])⟩
  | tryDequeue site q =>
    obtain ⟨htrying, hsite, _⟩ := hown.place
    refine run_try_less htrying hsite (hq.inv _) ?_
    simpa only [Pc.inQueue, if_true] using hk (site.bucket C u)
  | task site k v =>
    refine ⟨_, _, rfl, less_of_accesses ?_ rfl ?_⟩
    · cases site <;> rfl
    · simp [Pc.accesses, accesses]
  | stopLoad k =>
    refine ⟨_, _, rfl, less_of_stage ?_⟩
    rw [if_pos hstop]
    simp only [Pc.stage]
    omega
  | corr c =>
    refine ⟨_, _, rfl, less_of_stage ?_⟩
    split
    · simp [Pc.stage]
    · simp [Pc.stage]
  | exited => exact absurd rfl hpc
  | _ => cases hworks

/-- Thread `u` joins the workers, and those below `n` have ended. -/
structure Joining (C : Config T) (u i n : Nat) (s : Sys (Mem T) (Pc T)) : Prop where
  reach : (machine C).Reach calm (fresh C) s
  join : s.loc u = .join i
  exited : ∀ j < n, s.mem.exited j = true

variable {i : Nat}

theorem Joining.worker_run {n : Nat} (h : Joining C u i n s) (hworks : (s.loc w).works = true)
    (hr : run C w (s.loc w) s.mem = some (pc', m')) :
    Joining C u i n ⟨m', update s.loc w pc'⟩ where
  reach := h.reach.step (.run w) trivial (Machine.step_run hr)
  join := by
    have hne : u ≠ w := by
      rintro rfl
      rw [h.join] at hworks
      cases hworks
    simpa [hne] using h.join
  exited j hj := by
    have hstep := run_own (holds_of_reach h.reach) (queuesOk_of_reach h.reach) hr
    exact hstep.effect.exited j (h.exited j hj)

theorem works_of_locks (h : pc.locks = true) : pc.works = true := by
  cases pc <;> first | rfl | cases h

theorem run_unlock (h : pc.locks = true) :
    ∃ pc' m', run C u pc m = some (pc', m') ∧ m'.configTaskMutex = none := by
  cases pc with
  | allocUnlock | releaseUnlock => exact ⟨_, _, rfl, rfl⟩
  | _ => cases h

theorem Joining.leads {n : Nat} (h : Joining C u i n s) (hn : n < C.numThreads) :
    (machine C).Leads calm (Joining C u i (n + 1)) s := by
  refine .of_rank less_wf (fun s => rank C n (s.loc n) s.mem) ?_ h
  intro s h
  have hholds := holds_of_reach h.reach
  have hown := hholds.2 n
  have hstop : s.mem.stop = true := by
    have hplace := (hholds.2 u).place
    rw [h.join] at hplace
    exact hplace.1
  by_cases hexited : s.loc n = .exited
  · refine .inl ⟨h.reach, h.join, fun j hj => ?_⟩
    obtain hj | rfl := Nat.lt_succ_iff_lt_or_eq.mp hj
    · exact h.exited j hj
    · have hplace := hown.place
      rw [hexited] at hplace
      exact hplace.2
  · by_cases hwait : (s.loc n = .allocLock ∨ s.loc n = .releaseLock) ∧ s.mem.configTaskMutex ≠ none
    · -- another thread has the mutex, and its next step is to let go of it
      obtain ⟨hpc, hmutex⟩ := hwait
      obtain ⟨w, hw⟩ := Option.ne_none_iff_exists'.mp hmutex
      have hlocks := locks_of_reach h.reach w hw
      have hne : n ≠ w := by
        rintro rfl
        obtain hpc | hpc := hpc
        all_goals
          rw [hpc] at hlocks
          cases hlocks
      obtain ⟨pc', m', hr, hnone⟩ := run_unlock hlocks
      refine .inr ⟨.run w, _, trivial, Machine.step_run hr, h.worker_run (works_of_locks hlocks) hr, ?_⟩
      have hloc : update s.loc w pc' n = s.loc n := update_of_ne hne ..
      dsimp only
      rw [hloc]
      refine less_of_accesses rfl ?_ ?_
      · obtain hpc | hpc := hpc <;> rw [hpc] <;> rfl
      · obtain hpc | hpc := hpc <;> simp [hpc, Pc.accesses, hnone, hmutex]
    · have hworks := hown.works.mpr hn
      have hfree : s.loc n = .allocLock ∨ s.loc n = .releaseLock → s.mem.configTaskMutex = none :=
        fun hpc => by_contra fun hmutex => hwait ⟨hpc, hmutex⟩
      obtain ⟨pc', m', hr, hless⟩ :=
        run_less hholds (queuesOk_of_reach h.reach) hstop hworks hexited hfree
      refine .inr ⟨.run n, _, trivial, Machine.step_run hr, h.worker_run hworks hr, ?_⟩
      simpa using hless

theorem leads_workers (h : Joining C u i 0 s) :
    ∀ n ≤ C.numThreads, (machine C).Leads calm (Joining C u i n) s := by
  intro n hn
  induction n with
  | zero => exact .here h
  | succ n ih => exact (ih (by omega)).trans fun s' h' => h'.leads hn

theorem Joining.closes (h : Joining C u i C.numThreads s) :
    (machine C).Leads calm (fun s' => s'.loc u = .closed) s := by
  generalize hk : C.numThreads - i = k
  induction k generalizing i s with
  | zero => exact .run trivial h.join (if_neg (by omega)) (.here Sys.loc_update)
  | succ k ih =>
    have hi : i < C.numThreads := by omega
    have hr : run C u (.join i) s.mem = some (.join (i + 1), s.mem) := by
      rw [run, if_pos hi, if_pos (h.exited i hi)]
    refine .run trivial h.join hr (ih ⟨?_, Sys.loc_update, h.exited⟩ (by omega))
    exact h.reach.step (.run u) trivial (Machine.step_run (h.join ▸ hr))

theorem leads_join (hs : (machine C).Reach calm (fresh C) s) (hloc : s.loc u = .join i) :
    (machine C).Leads calm (fun s' => s'.loc u = .closed) s :=
  (leads_workers ⟨hs, hloc, nofun⟩ C.numThreads le_rfl).trans fun _ h => h.closes

/-- The thread is inside `close`, or has come back from it. -/
def Pc.inClose : Pc T → Bool
  | .closeStore | .join _ | .closed => true
  | _ => false

theorem leads_closed (hs : (machine C).Reach calm (fresh C) s) (hloc : (s.loc u).inClose = true) :
    (machine C).Leads calm (fun s' => s'.loc u = .closed) s := by
  cases hpc : s.loc u with
  | closeStore =>
    have hr : run C u (s.loc u) s.mem = some (.join 0, { s.mem with stop := true }) := by
      rw [hpc]
      rfl
    have hstep := Machine.step_run (M := machine C) hr
    exact .step (a := .run u) trivial hstep
      (leads_join (hs.step (.run u) trivial hstep) Sys.loc_update)
  | join i => exact leads_join hs hpc
  | closed => exact .here hpc
  | _ =>
    rw [hpc] at hloc
    cases hloc

/-- A `close` can return, and when it has, every task that was put into a bucket was run,
once. -/
theorem close_runs_every_task (C : Config T) (hs : (machine C).Reach calm (fresh C) s) (u : Nat) :
    ((s.loc u).inClose = true → (machine C).Leads calm (fun s' => s'.loc u = .closed) s) ∧
      (s.loc u = .closed → ∀ b < C.numBucket, ∀ k w task,
        (s.mem.tasks b).drawn[k]? = some (w, task) →
          (b, k, task) ∈ s.mem.executed ∧ s.mem.ran.count (b, k) = 1) := by
  refine ⟨leads_closed hs, ?_⟩
  intro hclosed b hb k w task hdrawn
  have hholds := holds_of_reach hs
  have hq := queuesOk_of_reach hs
  have hall : ∀ j < C.numThreads, s.mem.exited j = true := by
    have hplace := (hholds.2 u).place
    rwa [hclosed] at hplace
  have hempty : Emptied (s.mem.tasks b) := by
    obtain ⟨v, hv, i, rfl⟩ := covered C hb
    have hown := hholds.2 v
    have hplace := hown.place
    rw [hown.exits (hall v hv)] at hplace
    exact hplace.1.2 i hb
  have htaken : k < (s.mem.tasks b).head := by
    obtain ⟨hlt, _⟩ := List.getElem?_eq_some_iff.mp hdrawn
    rw [(hq.inv b).drawn_length] at hlt
    exact lt_of_lt_of_le hlt hempty
  have hexec := executed_of_taken hholds hq hall htaken hdrawn
  exact ⟨hexec, List.count_eq_one_of_mem hholds.1.once (List.mem_map.mpr ⟨_, hexec, rfl⟩)⟩

/-- Two workers and three buckets. -/
def smallPool : Config Nat where
  queue :=
    { capacity := 2
      pos := MpmcQueue.twoSlots.pos
      pow := MpmcQueue.twoSlots.pow
      noCc := false
      moved := id }
  numThreads := 2
  numBucket := 3
  threads_pos := MpmcQueue.twoSlots.pos
  bucket_pos := by decide
  bucketOrder u := if u = 0 then [2, 0, 1] else [0, 1, 2]
  shuffled u := by split <;> decide

def newPool : Sys (Mem Nat) (Pc Nat) where
  mem :=
    { tasks := fun _ => MpmcQueue.Mem.new fun _ => 0
      stop := false
      configTaskMutex := none
      exited := fun _ => false
      enqueuing := []
      closing := false
      executed := [] }
  loc u := if u < 2 then .allocLock else .idle

/-- Worker 1 has taken the first task when the pool is closed. Worker 0 runs the second one,
which it finds in a bucket of its own, and ends before worker 1 has run the first. -/
def closeSmallPool : List (Act (Op Nat)) :=
  Act.call 2 (Op.enqueue 0 7) :: List.replicate 4 (Act.run 2) ++
  Act.call 2 (Op.enqueue 2 8) :: List.replicate 4 (Act.run 2) ++
  List.replicate 6 (Act.run 1) ++ [Act.call 2 Op.close, Act.run 2] ++
  List.replicate 24 (Act.run 0) ++ List.replicate 14 (Act.run 1) ++ List.replicate 3 (Act.run 2)

theorem closeSmallPool_run : ((machine smallPool).runUnder calm closeSmallPool newPool).any fun s =>
      (s.loc 2 matches .closed) ∧ (s.mem.tasks 0).drawn = [(2, 7)] ∧ (s.mem.tasks 2).drawn = [(2, 8)] := by
  decide +kernel

theorem close_runs_every_task_smallPool :
    ∃ s, (machine smallPool).Reach calm (fresh smallPool) s ∧ s.loc 2 = .closed ∧
      (0, 0, 7) ∈ s.mem.executed ∧ (2, 0, 8) ∈ s.mem.executed := by
  obtain ⟨s, _, hreach, hloc, h0, h2⟩ :=
    Machine.reach_of_any (fresh smallPool) ⟨fun _ => ⟨_, rfl⟩, rfl, rfl, fun _ => rfl, rfl, rfl,
      rfl, fun _ => rfl⟩ closeSmallPool_run
  have hclosed : s.loc 2 = .closed := by
    cases hpc : s.loc 2 <;> first | rfl | (rw [hpc] at hloc; cases hloc)
  have hruns := (close_runs_every_task smallPool hreach 2).2 hclosed
  exact ⟨s, hreach, hclosed, (hruns 0 (by decide) 0 2 7 (by rw [h0]; rfl)).1,
    (hruns 2 (by decide) 0 2 8 (by rw [h2]; rfl)).1⟩

end ShmPcc.ThreadPool
