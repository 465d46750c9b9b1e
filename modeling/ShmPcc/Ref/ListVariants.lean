import Mathlib

/-!
# The list variants, called one after the other

`LockFreeList` and `LockListBigUnsorted` push a node behind the head and look a key up from
the front, `LockFreeSortedList` and `LockListBigSorted` keep their nodes in the order of the
keys. Without other threads a list is the sequence of its nodes between the two sentinels, a
compare-and-swap on a `next` pointer succeeds at once, and locks are free.

`find` writes the value it finds through a pointer; here it takes what is there before and
returns what is there after.
-/

namespace ShmPcc.ListVariants

variable {K V : Type} [LinearOrder K]

/-- One list class: what `insert` and `find` make of the nodes. A call that reads an
uninitialised variable has no result. -/
structure Variant (K V : Type) where
  insert : K → V → List (K × V) → Option (List (K × V))
  find : K → V → List (K × V) → Bool × V

/-- A new node behind the head. -/
def pushFront (key : K) (val : V) (nodes : List (K × V)) : List (K × V) := (key, val) :: nodes

/-- The first node with the key, from the front. -/
def findFront (key : K) (val : V) : List (K × V) → Bool × V
  | [] => (false, val)
  | n :: nodes => if n.1 = key then (true, n.2) else findFront key val nodes

namespace LockFreeList

def insert : K → V → List (K × V) → List (K × V) := pushFront

def find : K → V → List (K × V) → Bool × V := findFront

end LockFreeList

namespace LockFreeSortedList

/-- `insert` from where `list_search` has its left node. -/
def link (key : K) (val : V) : List (K × V) → List (K × V)
  | [] => [(key, val)]
  | n :: nodes =>
    if n.1 < key then n :: link key val nodes
    -- the value of a key that is there is left alone
    else if n.1 = key then n :: nodes
    else (key, val) :: n :: nodes

/-- For a key that is not above the one of the head, `list_search` never assigns
`left_node`. -/
def insert (headKey key : K) (val : V) (nodes : List (K × V)) : Option (List (K × V)) :=
  if headKey < key then some (link key val nodes) else none

def find (key : K) (val : V) : List (K × V) → Bool × V
  | [] => (false, val)
  | n :: nodes =>
    -- either we found it, or found the first larger element
    if n.1 ≥ key then (n.1 = key, n.2) else find key val nodes

end LockFreeSortedList

namespace LockListBigSorted

def insert (key : K) (val : V) : List (K × V) → List (K × V)
  | [] => [(key, val)]
  | n :: nodes =>
    if n.1 = key then (n.1, val) :: nodes
    else if n.1 > key then (key, val) :: n :: nodes
    else n :: insert key val nodes

def find (key : K) (val : V) : List (K × V) → Bool × V
  | [] => (false, val)
  | n :: nodes =>
    if n.1 = key then (true, n.2)
    else if n.1 > key then (false, val)
    else find key val nodes

end LockListBigSorted

namespace LockListBigUnsorted

def insert : K → V → List (K × V) → List (K × V) := pushFront

def find : K → V → List (K × V) → Bool × V := findFront

end LockListBigUnsorted

def lockFreeList : Variant K V := ⟨fun k v l => some (LockFreeList.insert k v l), LockFreeList.find⟩

def lockFreeSortedList (headKey : K) : Variant K V :=
  ⟨LockFreeSortedList.insert headKey, LockFreeSortedList.find⟩

def lockListBigSorted : Variant K V :=
  ⟨fun k v l => some (LockListBigSorted.insert k v l), LockListBigSorted.find⟩

def lockListBigUnsorted : Variant K V :=
  ⟨fun k v l => some (LockListBigUnsorted.insert k v l), LockListBigUnsorted.find⟩

inductive Call (K V : Type) where
  | insert (key : K) (val : V)
  /-- With what is at the pointer before. -/
  | find (key : K) (val : V)
deriving DecidableEq

/-- The results of the finds among the calls, on a list of the class. -/
def Variant.results (c : Variant K V) : List (Call K V) → List (K × V) → Option (List (Bool × V))
  | [], _ => some []
  | .insert key val :: calls, nodes => (c.insert key val nodes).bind (c.results calls)
  | .find key val :: calls, nodes => (c.results calls nodes).map (c.find key val nodes :: ·)

/-! ## The map they stand for -/

/-- The results of the finds where `recent` has the values inserted most recently. -/
def expected : List (Call K V) → (K → Option V) → List (Option V)
  | [], _ => []
  | .insert key val :: calls, recent => expected calls (Function.update recent key (some val))
  | .find key _ :: calls, recent => recent key :: expected calls recent

/-- A result as a caller uses it: the value counts where the flag is set. -/
def found (r : Bool × V) : Option V := if r.1 then some r.2 else none

/-- The key of a call is above that of the head. -/
def Call.above (headKey : K) : Call K V → Prop
  | .insert key _ | .find key _ => headKey < key

instance (headKey : K) : (c : Call K V) → Decidable (c.above headKey)
  | .insert key _ | .find key _ => inferInstanceAs (Decidable (headKey < key))

/-- No key is inserted with two values. -/
def Consistent (calls : List (Call K V)) : Prop :=
  ∀ k v v', .insert k v ∈ calls → .insert k v' ∈ calls → v = v'

end ShmPcc.ListVariants
