import Mathlib

/-!
# The variants of nt and aligned_nt

A build picks one class to stand for an atomic variable that bypasses the caches: the plain
`nt`, the `nt` of `NT_SIM`, which simulates the caches of several machines by one copy for
each, and the queued `nt`, which makes each access wait as long as it would in the queue of
a memory device. `aligned_nt` is a plain or a queued one on a cache line of its own.

A value of an integer type of `w` bits is a bit vector. The compiler's atomic operations wrap
around; an operator on a signed type that is not narrower than `int` is undefined where it
overflows. Flushing and writing back cache lines changes no value. The queued classes read a
clock and retry a weak compare-and-swap that may fail for no reason: what the clock shows at
each reading, and how often each such loop fails, is the environment's.
-/

namespace ShmPcc.NtVariants

open Function

variable {w : Nat}

inductive Op (w : Nat) where
  | load
  | store (newValue : BitVec w)
  | fetchAdd (i : BitVec w)
  | fetchSub (i : BitVec w)
  | compareExchangeStrong (expected desired : BitVec w)
deriving DecidableEq

inductive Ret (w : Nat) where
  | unit
  | value (v : BitVec w)
  /-- The result, and what is in `expected` afterwards. -/
  | exchanged (equal : Bool) (expected : BitVec w)
deriving DecidableEq

/-- A single atomic variable. -/
def atomic : Op w → BitVec w → Ret w × BitVec w
  | .load, v => (.value v, v)
  | .store newValue, _ => (.unit, newValue)
  | .fetchAdd i, v => (.value v, v + i)
  | .fetchSub i, v => (.value v, v - i)
  | .compareExchangeStrong expected desired, v =>
    if v = expected then (.exchanged true expected, desired) else (.exchanged false v, v)

/-- What calls one after the other return on the atomic variable. -/
def atomicResults : List (Op w) → BitVec w → List (Ret w)
  | [], _ => []
  | op :: ops, v => (atomic op v).1 :: atomicResults ops (atomic op v).2

/-- One class, with the operations called with their default arguments; `none` is undefined
behaviour. -/
structure Variant (w : Nat) (σ : Type) where
  construct : BitVec w → σ
  exec : Op w → σ → Option (Ret w × σ)

def Variant.results {σ : Type} (c : Variant w σ) : List (Op w) → σ → Option (List (Ret w))
  | [], _ => some []
  | op :: ops, s => (c.exec op s).bind fun (r, s) => (c.results ops s).map (r :: ·)

/-! ## The compiler's operations on a word -/

def addFetch (value i : BitVec w) : BitVec w := value + i

def subFetch (value i : BitVec w) : BitVec w := value - i

/-- `__atomic_compare_exchange_n`: the result, the word and the expected value. -/
def compareExchange (value expected desired : BitVec w) : Bool × BitVec w × BitVec w :=
  if value = expected then (true, desired, expected) else (false, value, value)

/-- Conversion to an integer type of `v` bits. -/
def convert (signed : Bool) (v : Nat) (i : BitVec w) : BitVec v :=
  if signed then i.signExtend v else i.setWidth v

/-- `result -= i`. A type narrower than `int` is subtracted as an `int`, which has room. -/
def subAssign (signed : Bool) (result i : BitVec w) : Option (BitVec w) :=
  if signed ∧ 32 ≤ w ∧ result.ssubOverflow i then none else some (result - i)

/-- `result += (uint64_t)i`, added in the wider one of the two types. -/
def addAssignUint64 (signed : Bool) (result i : BitVec w) : Option (BitVec w) :=
  if 64 < w then
    let i := (convert signed 64 i).setWidth w
    if signed ∧ result.saddOverflow i then none else some (result + i)
  else some ((convert signed 64 result + convert signed 64 i).setWidth w)

/-! ## The plain classes -/

/-- `nt` -/
def plain : Variant w (BitVec w) where
  construct v := v
  exec
    | .load, value => some (.value value, value)
    | .store newValue, _ => some (.unit, newValue)
    | .fetchAdd i, value => some (.value value, addFetch value i)
    | .fetchSub i, value => some (.value value, subFetch value i)
    | .compareExchangeStrong expected desired, value =>
      let (equal, value, expected) := compareExchange value expected desired
      some (.exchanged equal expected, value)

/-- `aligned_nt`, whose `fetch_add` is an `__atomic_add_fetch`. -/
def aligned : Variant w (BitVec w) where
  construct v := v
  exec
    | .load, value => some (.value value, value)
    | .store newValue, _ => some (.unit, newValue)
    | .fetchAdd i, value => some (.value (addFetch value i), addFetch value i)
    | .fetchSub i, value => some (.value value, subFetch value i)
    | .compareExchangeStrong expected desired, value =>
      let (equal, value, expected) := compareExchange value expected desired
      some (.exchanged equal expected, value)

/-! ## NT_SIM -/

/-- The value, and for each machine its copy and whether there is one. -/
structure Sim (w n : Nat) where
  value : BitVec w
  cacheValue : Fin n → BitVec w
  cacheAvailable : Fin n → Bool

/-- The size the constructor gives both vectors. -/
def machines (workerMachineCount : Nat) : Nat :=
  if workerMachineCount = 0 then 4 else workerMachineCount

namespace Sim

variable {n : Nat} (id : Fin n) (nt : Bool)

def setCache (s : Sim w n) (v : BitVec w) : Sim w n :=
  { s with cacheValue := update s.cacheValue id v }

def available (s : Sim w n) : Sim w n :=
  { s with cacheAvailable := update s.cacheAvailable id true }

def load (s : Sim w n) : BitVec w × Sim w n :=
  let nt := if !s.cacheAvailable id then true else nt
  let s := if nt then (s.setCache id s.value).available id else s
  (s.cacheValue id, s)

def store (newValue : BitVec w) (s : Sim w n) : Sim w n :=
  if nt then { (s.setCache id newValue).available id with value := newValue }
  else s.setCache id newValue

def fetchAdd (signed : Bool) (i : BitVec w) (s : Sim w n) : Option (BitVec w × Sim w n) :=
  let nt := if !s.cacheAvailable id then true else nt
  if nt then
    let result := addFetch s.value i
    let s := ({ s with value := result }.setCache id result).available id
    (subAssign signed result i).map (·, s)
  else some (s.cacheValue id, s.setCache id (addFetch (s.cacheValue id) i))

def fetchSub (signed : Bool) (i : BitVec w) (s : Sim w n) : Option (BitVec w × Sim w n) :=
  let nt := if !s.cacheAvailable id then true else nt
  if nt then
    let result := subFetch s.value i
    let s := ({ s with value := result }.setCache id result).available id
    (addAssignUint64 signed result i).map (·, s)
  else some (s.cacheValue id, s.setCache id (subFetch (s.cacheValue id) i))

def compareExchangeStrong (expected desired : BitVec w) (s : Sim w n) : Bool × BitVec w × Sim w n :=
  let nt := if !s.cacheAvailable id then true else nt
  if nt then
    let (equal, value, expected) := compareExchange s.value expected desired
    let s := { s with value := value }
    (equal, expected, if equal then (s.setCache id desired).available id else s)
  else
    let (equal, value, expected) := compareExchange (s.cacheValue id) expected desired
    (equal, expected, s.setCache id value)

end Sim

/-- `nt` of `NT_SIM` on machine `id`, where `nt` is true by default. The value the constructor
finds is whatever is in memory. -/
def sim (signed : Bool) {count : Nat} (id : Fin (machines count)) (memory : BitVec w) :
    Variant w (Sim w (machines count)) where
  construct v := Sim.store id true v ⟨memory, fun _ => 0, fun _ => false⟩
  exec
    | .load, s => let (v, s) := s.load id true; some (.value v, s)
    | .store newValue, s => some (.unit, s.store id true newValue)
    | .fetchAdd i, s => (s.fetchAdd id true signed i).map fun (v, s) => (.value v, s)
    | .fetchSub i, s => (s.fetchSub id true signed i).map fun (v, s) => (.value v, s)
    | .compareExchangeStrong expected desired, s =>
      let (equal, expected, s) := s.compareExchangeStrong id true expected desired
      some (.exchanged equal expected, s)

/-! ## The queued classes -/

/-- A clock that passes every point of time, and weak compare-and-swaps that succeed in the
end. -/
structure Env where
  /-- What the `n`-th reading of the clock shows. -/
  time : Nat → Int
  advances : ∀ n untilTime, ∃ m, n ≤ m ∧ untilTime ≤ time m
  /-- How often the `n`-th loop around a weak compare-and-swap fails for no reason. -/
  spurious : Nat → Nat

/-- `AtomicRequestQueue`, with how often the clock was read and how many requests were
made. -/
structure Queue where
  readings : Nat
  requests : Nat
  reqQueue : Nat → Int

namespace Queue

def c2cHalftrip : Int := 125

def casProcessTime : Int := 140

def storeProcessTime : Int := 140

def loadProcessTime : Int := 140

def bucketHash (addr : Nat) : Nat := (addr >>> 6) &&& 4095

/-- The loop of `pend_req`, with the failures still to come. -/
def enqueue (bidx : Nat) (cur processTime : Int) : Nat → Int → Queue → Int × Queue
  | 0, queueFinishPoint, q =>
    let untilTime := max queueFinishPoint cur + processTime
    if q.reqQueue bidx = queueFinishPoint then
      (untilTime, { q with reqQueue := update q.reqQueue bidx untilTime })
    else
      -- the failed one has loaded the finish point, and the next one succeeds
      let untilTime := max (q.reqQueue bidx) cur + processTime
      (untilTime, { q with reqQueue := update q.reqQueue bidx untilTime })
  | n + 1, _, q => enqueue bidx cur processTime n (q.reqQueue bidx) q

/-- `wait_until`: the clock is read until it shows the time. -/
def waitUntil (e : Env) (untilTime : Int) (q : Queue) : Queue :=
  { q with readings := Nat.find (e.advances q.readings untilTime) + 1 }

def pendReq (e : Env) (processTime : Int) (addr : Nat) (q : Queue) : Queue :=
  let bidx := bucketHash addr
  let cur := e.time q.readings + c2cHalftrip
  let q := { q with readings := q.readings + 1, requests := q.requests + 1 }
  let (untilTime, q) := enqueue bidx cur processTime (e.spurious q.requests) (q.reqQueue bidx) q
  waitUntil e (untilTime + c2cHalftrip) q

def pendCasReq (e : Env) : Nat → Queue → Queue := pendReq e casProcessTime

def pendLoadReq (e : Env) : Nat → Queue → Queue := pendReq e loadProcessTime

def pendStoreReq (e : Env) : Nat → Queue → Queue := pendReq e storeProcessTime

end Queue

/-- A queued variable, with the queue of all. -/
structure Queued (w : Nat) where
  value : BitVec w
  queue : Queue

/-- The queued `nt` at address `addr`, made when the queue is `q`. -/
def queued (e : Env) (addr : Nat) (q : Queue) : Variant w (Queued w) where
  construct v := ⟨v, q.pendStoreReq e addr⟩
  exec
    | .load, s => some (.value s.value, { s with queue := s.queue.pendLoadReq e addr })
    | .store newValue, s => some (.unit, ⟨newValue, s.queue.pendStoreReq e addr⟩)
    | .fetchAdd i, s => some (.value s.value, ⟨addFetch s.value i, s.queue.pendCasReq e addr⟩)
    | .fetchSub i, s => some (.value s.value, ⟨subFetch s.value i, s.queue.pendCasReq e addr⟩)
    | .compareExchangeStrong expected desired, s =>
      let (equal, value, expected) := compareExchange s.value expected desired
      some (.exchanged equal expected, ⟨value, s.queue.pendCasReq e addr⟩)

/-- The queued `aligned_nt`. -/
def queuedAligned (e : Env) (addr : Nat) (q : Queue) : Variant w (Queued w) where
  construct v := ⟨v, q.pendStoreReq e addr⟩
  exec
    | .load, s => some (.value s.value, { s with queue := s.queue.pendLoadReq e addr })
    | .store newValue, s => some (.unit, ⟨newValue, s.queue.pendStoreReq e addr⟩)
    | .fetchAdd i, s =>
      some (.value (addFetch s.value i), ⟨addFetch s.value i, s.queue.pendCasReq e addr⟩)
    | .fetchSub i, s => some (.value s.value, ⟨subFetch s.value i, s.queue.pendCasReq e addr⟩)
    | .compareExchangeStrong expected desired, s =>
      let (equal, value, expected) := compareExchange s.value expected desired
      some (.exchanged equal expected, ⟨value, s.queue.pendCasReq e addr⟩)

end ShmPcc.NtVariants
