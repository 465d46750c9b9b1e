import ShmPcc.Lib.History

/-!
# nt with USE_DISAGR_CAS

Where the shared memory has no atomic operations, `nt` keeps its value in uncacheable
memory and a lock byte beside the pointer to it, and each operation does its work on the
value between taking and releasing that byte. `store`, `fetch_add` and `fetch_sub` spin
on a compare-and-swap, and its expected value is declared before the loop: a failed
attempt leaves in it what the lock was. `compare_exchange_strong` tries once, and answers
false where the lock is taken.

Each access of `lock` and of `*value` is one step; `*value += i` is a load and a store.
-/

namespace ShmPcc.DisagrCas

/-- `nt<T>` -/
structure Mem (T : Type) where
  lock : UInt8
  value : T
deriving DecidableEq

inductive Op (T : Type) where
  | store (newValue : T)
  | fetchAdd (i : T)
  | fetchSub (i : T)
  | compareExchangeStrong (expected desired : T)
deriving DecidableEq

inductive Ret (T : Type) where
  | done
  | value (oldValue : T)
  | flag (ok : Bool)
deriving DecidableEq

inductive Pc (T : Type) where
  | idle
  -- the loop of store, fetch_add and fetch_sub
  | spin (op : Op T) (expected : UInt8)
  | storeValue (newValue : T)
  | loadOld (op : Op T)
  | loadAgain (op : Op T) (oldValue : T)
  | storeBack (op : Op T) (oldValue current : T)
  -- compare_exchange_strong
  | attempt (expected desired : T)
  | compare (expected desired : T)
  | exchange (expected desired : T)
  -- `lock = 0` and the return
  | release (op : Op T) (ret : Ret T)
deriving DecidableEq

section

variable {T : Type} [DecidableEq T] [Add T] [Sub T]

/-- The right-hand side of `*value += i` and `*value -= i`. -/
def Op.combine (current : T) : Op T → T
  | .fetchAdd i => current + i
  | .fetchSub i => current - i
  | _ => current

/-- Where an operation goes on with the lock. -/
def Op.locked : Op T → Pc T
  | .store newValue => .storeValue newValue
  | .fetchAdd i => .loadOld (.fetchAdd i)
  | .fetchSub i => .loadOld (.fetchSub i)
  | .compareExchangeStrong expected desired => .compare expected desired

def call (_ : Nat) (op : Op T) (pc : Pc T) (m : Mem T) : Option (Pc T × Mem T) :=
  match pc, op with
  | .idle, .compareExchangeStrong expected desired => some (.attempt expected desired, m)
  | .idle, op => some (.spin op 0, m)
  | _, _ => none

def run (_ : Nat) : Pc T → Mem T → Option (Pc T × Mem T)
  | .idle, _ => none
  | .spin op expected, m =>
    if m.lock = expected then some (op.locked, { m with lock := 1 })
    -- the failed compare-and-swap has written the lock into expected
    else some (.spin op m.lock, m)
  | .storeValue newValue, m =>
    some (.release (.store newValue) .done, { m with value := newValue })
  | .loadOld op, m => some (.loadAgain op m.value, m)
  | .loadAgain op oldValue, m => some (.storeBack op oldValue m.value, m)
  | .storeBack op oldValue current, m =>
    some (.release op (.value oldValue), { m with value := op.combine current })
  | .attempt expected desired, m =>
    if m.lock = 0 then some (.compare expected desired, { m with lock := 1 })
    else some (.idle, m)
  | .compare expected desired, m =>
    if m.value = expected then some (.exchange expected desired, m)
    else some (.release (.compareExchangeStrong expected desired) (.flag false), m)
  | .exchange expected desired, m =>
    some (.release (.compareExchangeStrong expected desired) (.flag true),
      { m with value := desired })
  | .release _ _, m => some (.idle, { m with lock := 0 })

def machine : Machine (Mem T) (Pc T) (Op T) := ⟨call, run⟩

end

section

variable {T : Type}

/-- The thread is between acquiring and releasing the lock. -/
def Pc.inside : Pc T → Bool
  | .idle | .spin .. | .attempt .. => false
  | _ => true

/-- A call with what it returned. -/
structure Call (T : Type) where
  op : Op T
  ret : Ret T
deriving DecidableEq

/-- The call that a step completes. -/
def returns (pc pc' : Pc T) : Option (Call T) :=
  match pc, pc' with
  | .release op ret, _ => some ⟨op, ret⟩
  | .attempt expected desired, .idle => some ⟨.compareExchangeStrong expected desired, .flag false⟩
  | _, _ => none

/-- The completed calls, in the order of their returns. -/
def log (_ : Nat) (pc : Pc T) (_ : Mem T) (pc' : Pc T) (calls : List (Call T)) : List (Call T) :=
  calls ++ (returns pc pc').toList

/-- The value is `v`, the lock is free, and nothing is called yet. -/
def fresh (v : T) (s : Sys (Mem T × List (Call T)) (Pc T)) : Prop :=
  s.mem = (⟨0, v⟩, []) ∧ ∀ t, s.loc t = .idle

/-- No thread is in a call. -/
def Quiet (s : Sys (Mem T × List (Call T)) (Pc T)) : Prop := ∀ t, s.loc t = .idle

variable [DecidableEq T]

/-- A spin loop whose expected value a failed attempt has changed does not meet the lock
taken, and a `compare_exchange_strong` that does is one that would fail anyway. -/
def Pc.timely (pc : Pc T) (m : Mem T) : Bool :=
  match pc with
  | .spin _ expected => expected == 0 || m.lock == 0
  | .attempt expected _ => m.lock == 0 || m.value != expected
  | _ => true

def timely (s : Sys (Mem T) (Pc T)) (a : Act (Op T)) : Prop :=
  ∀ t, a = .run t → (s.loc t).timely s.mem = true

instance (s : Sys (Mem T) (Pc T)) : (a : Act (Op T)) → Decidable (timely s a)
  | .call .. => .isTrue nofun
  | .run t => decidable_of_iff ((s.loc t).timely s.mem = true)
      ⟨fun h _ heq => by cases heq; exact h, fun h => h t rfl⟩

end

/-! ## The atomic variable it stands for -/

section

variable {T : Type} [DecidableEq T] [Add T] [Sub T]

def Op.apply (value : T) : Op T → Ret T × T
  | .store newValue => (.done, newValue)
  | .fetchAdd i => (.value value, value + i)
  | .fetchSub i => (.value value, value - i)
  | .compareExchangeStrong expected desired =>
    if value = expected then (.flag true, desired) else (.flag false, value)

/-- The calls one after the other, if each returns what is noted of it. -/
def replay : T → List (Call T) → Option T
  | value, [] => some value
  | value, c :: calls =>
    if (c.op.apply value).1 = c.ret then replay (c.op.apply value).2 calls else none

end

end ShmPcc.DisagrCas
