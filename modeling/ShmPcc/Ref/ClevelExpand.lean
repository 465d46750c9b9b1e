import ShmPcc.Lib.Machine
import ShmPcc.Ref.ClevelHash

/-!
# `expand` and `resize`, access by access

The same code as `expand`, `publishLoop` and `resize` in `ClevelHash`, with program counters
in the place of the tree of accesses and with its loops not cut off: what is asked here is
where a call of `expand` takes its second branch. Only the published metas and the chain of
levels are in the memory. What the rehasher does with the slots of a bucket has one result
that matters, whether an item found no room, and the rehasher comes to either.

A level is its place in the chain, and `levels` has the capacity of each. Thread 0 is the
rehasher, the others call `expand` with any meta that was published. `returns` is history:
for each `expand` that has returned, its argument and the meta that was published then.
-/

namespace ShmPcc.ClevelExpand

open ClevelHash (Meta)

structure Mem where
  metaPtr : Nat
  metas : Nat → Meta
  levels : List Nat
  -- history
  returns : List (Nat × Nat)

namespace Mem

def cur (m : Mem) : Meta := m.metas m.metaPtr

def capacity (m : Mem) (level : Nat) : Nat := m.levels.getD level 0

def up (m : Mem) (level : Nat) : Option Nat :=
  if level + 1 < m.levels.length then some (level + 1) else none

/-- The compare-exchange of a null `up` with a new level. -/
def casUp (m : Mem) (level newCapacity : Nat) : Mem :=
  if level + 1 = m.levels.length then { m with levels := m.levels ++ [newCapacity] } else m

def publish (m : Mem) (mt : Meta) : Mem :=
  { m with metaPtr := m.metaPtr + 1, metas := Function.update m.metas (m.metaPtr + 1) mt }

end Mem

/-- Where a call of `expand` is. -/
inductive Expand where
  | upLoad
  | upCas
  /-- `meta.load() == m_copy`, in the second branch. -/
  | metaLoad
  | newMeta (newCapacity mCopy : Nat)
  | metaCas (newCapacity mCopy : Nat) (tmpMeta : Meta)
  | reload (newCapacity : Nat)
deriving DecidableEq

/-- The call comes from `generic_insert`, or from the rehasher at a bucket. -/
inductive Caller where
  | insert
  | resize (expandBucket : Nat)
deriving DecidableEq

inductive Pc where
  | idle
  /-- `m` is the argument of the call. -/
  | expand (caller : Caller) (m : Nat) (place : Expand)
  -- resize
  | loop (expandBucket : Nat)
  | countLevels (expandBucket m li nLevels : Nat)
  | retryRehash (expandBucket : Nat)
  | bucket (expandBucket m : Nat)
  | levelsLeft (bl m li levelsLeft : Nat)
  | bottomUp (bl m levelsLeft : Nat)
  | dropCas (bl m : Nat) (tmpMeta : Meta)
  | dropLoad (bl : Nat)
deriving DecidableEq

inductive Op where
  | expand (m : Nat)
  /-- The rehasher has gone through the slots of its bucket, and found no room for one. -/
  | noRoom
  /-- It has moved all items of its bucket. -/
  | rehashed

/-- The next access of `expand` on `m`; it returns where no place comes next. -/
def expand (m : Nat) : Expand → Mem → Option (Option Expand × Mem)
  | .upLoad, s => some (some (if s.up (s.metas m).firstLevel = none then .upCas else .metaLoad), s)
  | .upCas, s =>
    let cl := (s.metas m).firstLevel
    let newCapacity := s.capacity cl * 2
    some (some (.newMeta newCapacity m), s.casUp cl newCapacity)
  | .metaLoad, s =>
    if s.metaPtr = m then some (some (.newMeta (s.capacity (s.metas m).firstLevel) m), s)
    else some (none, s)
  | .newMeta newCapacity mCopy, s =>
    let mt := s.metas mCopy
    if newCapacity ≤ s.capacity mt.firstLevel then
      some (some (.metaCas newCapacity mCopy ⟨mt.firstLevel, mt.lastLevel, true⟩), s)
    else (s.up mt.firstLevel).map fun up => (some (.metaCas newCapacity mCopy ⟨up, mt.lastLevel, true⟩), s)
  | .metaCas newCapacity mCopy tmpMeta, s =>
    if s.metaPtr = mCopy then some (none, s.publish tmpMeta)
    else some (some (.reload newCapacity), s)
  | .reload newCapacity, s =>
    if newCapacity ≤ s.capacity s.cur.firstLevel ∧ s.cur.isResizing = true then some (none, s)
    else some (some (.newMeta newCapacity s.metaPtr), s)

def Caller.next : Caller → Pc
  | .insert => .idle
  | .resize expandBucket => .retryRehash expandBucket

def call (u : Nat) : Op → Pc → Mem → Option (Pc × Mem)
  | .expand m, .idle, s => if u ≠ 0 ∧ m ≤ s.metaPtr then some (.expand .insert m .upLoad, s) else none
  | .noRoom, .bucket expandBucket m, s => some (.expand (.resize expandBucket) m .upLoad, s)
  | .rehashed, .bucket expandBucket m, s =>
    let bl := (s.metas m).lastLevel
    -- resize_bulk is 1: the outer loop goes on after each bucket
    some (if expandBucket + 1 = s.capacity bl then .levelsLeft bl m bl 0
      else .loop (expandBucket + 1), s)
  | _, _, _ => none

def run (_ : Nat) : Pc → Mem → Option (Pc × Mem)
  | .idle, _ => none
  | .expand caller m place, s =>
    (expand m place s).map fun x =>
      match x.1 with
      | some place => (.expand caller m place, x.2)
      | none => (caller.next, { x.2 with returns := x.2.returns ++ [(m, x.2.metaPtr)] })
  | .loop expandBucket, s => some (.countLevels expandBucket s.metaPtr s.cur.lastLevel 1, s)
  | .countLevels expandBucket m li nLevels, s =>
    if li = (s.metas m).firstLevel then
      some (if nLevels = 2 then .loop expandBucket else .retryRehash expandBucket, s)
    else (s.up li).map fun up => (.countLevels expandBucket m up (nLevels + 1), s)
  | .retryRehash expandBucket, s => some (.bucket expandBucket s.metaPtr, s)
  | .bucket _ _, _ => none
  | .levelsLeft bl m li levelsLeft, s =>
    if li = (s.metas m).firstLevel then some (.bottomUp bl m levelsLeft, s)
    else (s.up li).map fun up => (.levelsLeft bl m up (levelsLeft + 1), s)
  | .bottomUp bl m levelsLeft, s =>
    (s.up bl).map fun up => (.dropCas bl m ⟨(s.metas m).firstLevel, up, levelsLeft != 2⟩, s)
  | .dropCas bl m tmpMeta, s =>
    if s.metaPtr = m then some (.loop 0, s.publish tmpMeta) else some (.dropLoad bl, s)
  | .dropLoad bl, s => some (.levelsLeft bl s.metaPtr s.cur.lastLevel 0, s)

def machine : Machine Mem Pc Op where
  call := call
  run := run

/-- What the constructor leaves, with the rehasher about to start. -/
def fresh (hashpower : Nat) (s : Sys Mem Pc) : Prop :=
  s.mem.metaPtr = 0 ∧ s.mem.metas 0 = ⟨1, 0, false⟩ ∧
    s.mem.levels = [2 ^ (hashpower - 1), 2 ^ (hashpower - 1) * 2] ∧ s.mem.returns = [] ∧
    s.loc 0 = .loop 0 ∧ ∀ u, u ≠ 0 → s.loc u = .idle

/-- A thread that reads `up` in `expand` finds no level there that is not published. -/
def Pc.UpPublished : Pc → Mem → Prop
  | .expand _ m .upLoad, s =>
    s.up (s.metas m).firstLevel ≠ none → (s.metas m).firstLevel < s.cur.firstLevel
  | _, _ => True

instance : (pc : Pc) → (s : Mem) → Decidable (pc.UpPublished s)
  | .expand _ m .upLoad, s =>
    inferInstanceAs (Decidable (s.up (s.metas m).firstLevel ≠ none → (s.metas m).firstLevel < s.cur.firstLevel))
  | .expand _ _ .upCas, _ | .expand _ _ .metaLoad, _ | .expand _ _ (.newMeta _ _), _
  | .expand _ _ (.metaCas _ _ _), _ | .expand _ _ (.reload _), _ => .isTrue trivial
  | .idle, _ | .loop _, _ | .countLevels _ _ _ _, _ | .retryRehash _, _ | .bucket _ _, _
  | .levelsLeft _ _ _ _, _ | .bottomUp _ _ _, _ | .dropCas _ _ _, _ | .dropLoad _, _ => .isTrue trivial

/-- No `expand` finds the next level linked and not yet published. -/
def upPublished (s : Sys Mem Pc) : Act Op → Prop
  | .run u => (s.loc u).UpPublished s.mem
  | .call _ _ => True

instance (s : Sys Mem Pc) : (a : Act Op) → Decidable (upPublished s a)
  | .run u => inferInstanceAs (Decidable ((s.loc u).UpPublished s.mem))
  | .call _ _ => .isTrue trivial

end ShmPcc.ClevelExpand
