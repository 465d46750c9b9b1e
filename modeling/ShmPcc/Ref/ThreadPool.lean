import ShmPcc.Ref.MpmcQueue

/-!
# The thread pool of YCSB-C

The pool has `num_bucket` queues of tasks and `num_threads` workers. A worker looks for
tasks in one bucket until it is empty, then in the next one of its own random order. Where
a bucket is empty and `stop` is set, it drains every `num_threads`-th bucket, from its own
number on, and ends. `close` sets `stop` and joins the workers.

The threads below `numThreads` are the workers, the others are clients, which call
`enqueue` and `close`. A step of a `try_dequeue` or an `enqueue` is a step of the queue of
its bucket, in the words of that queue. `alloc_task` and `release_task` run under
`config_task_mutex`, and what they do there is left out. A task is run in one step. A
bucket is 8192 slots and a queue's counters, and the address space has room for less than
2^31 of them: a bucket number fits into the `int` and the `uint32_t` it is kept in.

The fields below the line in `Mem` are history: the clients inside an `enqueue`, whether
`close` was called, and which tasks were run, with the bucket and the ticket each came
with.
-/

namespace ShmPcc.ThreadPool

variable {T : Type}

structure Config (T : Type) where
  queue : MpmcQueue.Config T
  numThreads : Nat
  numBucket : Nat
  threads_pos : 0 < numThreads
  bucket_pos : 0 < numBucket
  /-- `bucket_order` of each worker. -/
  bucketOrder : Nat → List Nat
  shuffled : ∀ u, (bucketOrder u).Perm (List.range numBucket)

structure Mem (T : Type) where
  tasks : Nat → MpmcQueue.Mem T
  stop : Bool
  configTaskMutex : Option Nat
  /-- The worker has returned, which `join` waits for. -/
  exited : Nat → Bool
  -- history
  enqueuing : List Nat
  closing : Bool
  executed : List (Nat × Nat × T)

/-- Where a worker looks for tasks: in its loop, or in the loop over its own buckets after
`stop`. -/
inductive Site where
  | loop (orderIndex : Nat)
  | drain (corrBucket : Nat)
deriving DecidableEq

inductive Pc (T : Type) where
  | idle
  | enqueue (bucket : Nat) (pc : MpmcQueue.Pc T)
  -- close
  | closeStore
  | join (worker : Nat)
  | closed
  -- thread_job
  | allocLock
  | allocUnlock
  | tryDequeue (site : Site) (pc : MpmcQueue.Pc T)
  | task (site : Site) (ticket : Nat) (item : T)
  | stopLoad (orderIndex : Nat)
  | corr (corrBucket : Nat)
  | releaseLock
  | releaseUnlock
  | exited

inductive Op (T : Type) where
  | enqueue (i : Int) (item : T)
  | close

/-- `last_pos`, or the bucket that is drained. -/
def Site.bucket (C : Config T) (u : Nat) : Site → Nat
  | .loop orderIndex => (C.bucketOrder u).getD orderIndex 0
  | .drain corrBucket => corrBucket

/-- `i % num_bucket`, where `i` is converted to `size_t`. -/
def Config.bucketOf (C : Config T) (i : Int) : Nat := (i % 2 ^ 64).toNat % C.numBucket

namespace Mem

def setTasks (m : Mem T) (b : Nat) (q : MpmcQueue.Mem T) : Mem T :=
  { m with tasks := Function.update m.tasks b q }

/-- The bucket and the ticket of each task that was run. -/
def ran (m : Mem T) : List (Nat × Nat) := m.executed.map fun x => (x.1, x.2.1)

end Mem

def call (C : Config T) (u : Nat) : Op T → Pc T → Mem T → Option (Pc T × Mem T)
  | .enqueue i item, .idle, m =>
    some (.enqueue (C.bucketOf i) (.enqueue item), { m with enqueuing := u :: m.enqueuing })
  | .close, .idle, m => some (.closeStore, { m with closing := true })
  | _, _, _ => none

/-- What follows a step of `try_dequeue` that was made at `pc` and led to `pc'`. -/
def afterStep (C : Config T) (site : Site) (pc : MpmcQueue.Pc T) : MpmcQueue.Pc T → Pc T
  | .idle =>
    match pc with
    | .dequeueRelease ticket item => .task site ticket item
    | _ =>
      match site with
      | .loop orderIndex => .stopLoad orderIndex
      | .drain corrBucket => .corr (corrBucket + C.numThreads)
  | pc' => .tryDequeue site pc'

/-- The loop of `enqueue` ends at once: the queue's `enqueue` returns true. -/
def afterEnqueue (b : Nat) : MpmcQueue.Pc T → Pc T
  | .idle => .idle
  | pc => .enqueue b pc

/-- The clients inside an `enqueue`, when `u` has made a step of one. -/
def stillEnqueuing (u : Nat) (us : List Nat) : MpmcQueue.Pc T → List Nat
  | .idle => us.erase u
  | _ => us

def run (C : Config T) (u : Nat) : Pc T → Mem T → Option (Pc T × Mem T)
  | .idle, _ => none
  | .enqueue b pc, m =>
    (MpmcQueue.run C.queue u pc (m.tasks b)).map fun x =>
      (afterEnqueue b x.1,
        { m.setTasks b x.2 with enqueuing := stillEnqueuing u m.enqueuing x.1 })
  | .closeStore, m => some (.join 0, { m with stop := true })
  | .join i, m =>
    if i < C.numThreads then
      if m.exited i = true then some (.join (i + 1), m) else none
    else some (.closed, m)
  | .closed, _ => none
  | .allocLock, m =>
    if m.configTaskMutex = none then some (.allocUnlock, { m with configTaskMutex := some u }) else none
  | .allocUnlock, m => some (.tryDequeue (.loop 0) .tryDequeue, { m with configTaskMutex := none })
  | .tryDequeue site pc, m =>
    (MpmcQueue.run C.queue u pc (m.tasks (site.bucket C u))).map fun x =>
      (afterStep C site pc x.1, m.setTasks (site.bucket C u) x.2)
  | .task site ticket item, m =>
    some (.tryDequeue site .tryDequeue,
      { m with executed := m.executed ++ [(site.bucket C u, ticket, item)] })
  | .stopLoad orderIndex, m =>
    some (if m.stop = true then .corr (u % C.numBucket)
      else .tryDequeue (.loop ((orderIndex + 1) % C.numBucket)) .tryDequeue, m)
  | .corr corrBucket, m =>
    some (if corrBucket < C.numBucket then .tryDequeue (.drain corrBucket) .tryDequeue
      else .releaseLock, m)
  | .releaseLock, m =>
    if m.configTaskMutex = none then some (.releaseUnlock, { m with configTaskMutex := some u })
    else none
  | .releaseUnlock, m =>
    some (.exited,
      { m with configTaskMutex := none, exited := Function.update m.exited u true })
  | .exited, _ => none

def machine (C : Config T) : Machine (Mem T) (Pc T) (Op T) where
  call := call C
  run := run C

/-- What the constructor leaves, with its threads about to start. -/
def fresh (C : Config T) (s : Sys (Mem T) (Pc T)) : Prop :=
  (∀ b, ∃ v, s.mem.tasks b = MpmcQueue.Mem.new v) ∧ s.mem.stop = false ∧
    s.mem.configTaskMutex = none ∧ (∀ u, s.mem.exited u = false) ∧ s.mem.enqueuing = [] ∧
    s.mem.closing = false ∧ s.mem.executed = [] ∧
    ∀ u, s.loc u = if u < C.numThreads then .allocLock else .idle

/-- No `enqueue` runs while the pool is closed, and one thread closes it. -/
def calm (s : Sys (Mem T) (Pc T)) : Act (Op T) → Prop
  | .call _ (.enqueue _ _) => s.mem.closing = false
  | .call _ .close => s.mem.closing = false ∧ s.mem.enqueuing = []
  | .run _ => True

instance (s : Sys (Mem T) (Pc T)) : (a : Act (Op T)) → Decidable (calm s a)
  | .call _ (.enqueue _ _) => inferInstanceAs (Decidable (_ = _))
  | .call _ .close => decidable_of_iff (s.mem.closing = false ∧ s.mem.enqueuing.isEmpty = true) (by
      simp [calm])
  | .run _ => .isTrue trivial

end ShmPcc.ThreadPool
