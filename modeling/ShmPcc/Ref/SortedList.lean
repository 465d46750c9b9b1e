import ShmPcc.Lib.Fresh
import ShmPcc.Lib.History
import ShmPcc.Lib.Links

/-!
# LockFreeSortedList::insert

A list of nodes between two sentinels, sorted by their keys. `list_search` walks from the
head to the first node whose key is not smaller, remembers the node before it, and unlinks
what lies between the two if that is not one step; `insert` links its node between them by
a compare-and-swap on the `next` pointer of the left one, and searches again where that
fails. The low-order bit of a `next` pointer marks the node that holds it as deleted.

Each load, store and compare-and-swap of a `next` pointer is one step. Keys and values of
nodes do not change once they are made. New nodes come from an allocator, which hands out
no address twice; `made` also knows which thread a node belongs to before it is linked.
-/

namespace ShmPcc.SortedList

open Function

/-- A `node_t*` with its low-order bit. -/
structure Ref where
  node : Nat
  marked : Bool
deriving DecidableEq

/-- A pointer to a node, without the mark. -/
def ref (node : Nat) : Ref := ⟨node, false⟩

def null : Ref := ref 0

structure Mem (K V : Type) where
  head : Nat
  tail : Nat
  key : Nat → K
  val : Nat → V
  next : Nat → Ref
  made : Fresh

inductive Op (K V : Type) where
  | insert (key : K) (val : V)

/-- The locals of `insert` and of its `list_search`: `left_node` is not initialised. -/
structure Search (K : Type) where
  newElem : Nat
  key : K
  leftNode : Option Nat
  leftNodeNext : Ref
deriving DecidableEq

inductive Pc (K V : Type) where
  | idle
  | newNode (key : K) (val : V)
  -- list_search
  | loadFirst (w : Search K)
  | loadNext (w : Search K) (iter : Nat)
  | unlink (w : Search K) (rightNode : Nat)
  | checkRight (w : Search K) (rightNode : Nat)
  -- insert
  | setNext (w : Search K) (rightNode : Nat)
  | link (w : Search K) (rightNode : Nat)
deriving DecidableEq

section

variable {K V : Type} [LinearOrder K]

/-- A new call of `list_search`. -/
def listSearch (newElem : Nat) (key : K) : Pc K V := .loadFirst ⟨newElem, key, none, null⟩

/-- After the inner loop, at `right_node`. -/
def atRight (w : Search K) (rightNode : Nat) : Pc K V :=
  if w.leftNodeNext = ref rightNode then .checkRight w rightNode else .unlink w rightNode

/-- The condition of the inner loop with `t_next` loaded from `iter`, and its body. -/
def walk (m : Mem K V) (w : Search K) (iter : Nat) (tNext : Ref) : Pc K V :=
  if tNext.marked ∨ m.key iter < w.key then
    let w := if tNext.marked then w else { w with leftNode := some iter, leftNodeNext := tNext }
    if tNext.node = m.tail then atRight w tNext.node else .loadNext w tNext.node
  else atRight w iter

/-- `insert` after `list_search` has returned. -/
def searched (m : Mem K V) (w : Search K) (rightNode : Nat) : Pc K V :=
  if rightNode ≠ m.tail ∧ m.key rightNode = w.key then .idle else .setNext w rightNode

def call (_ : Nat) (op : Op K V) (pc : Pc K V) (m : Mem K V) : Option (Pc K V × Mem K V) :=
  match pc, op with
  | .idle, .insert key val => some (.newNode key val, m)
  | _, _ => none

def run (t : Nat) : Pc K V → Mem K V → Option (Pc K V × Mem K V)
  | .idle, _ => none
  | .newNode key val, m =>
    let n := m.made.count
    some (listSearch n key, { m with
      key := update m.key n key
      val := update m.val n val
      next := update m.next n null
      made := m.made.draw t })
  | .loadFirst w, m => some (walk m w m.head (m.next m.head), m)
  | .loadNext w iter, m => some (walk m w iter (m.next iter), m)
  | .unlink w rightNode, m =>
    -- nothing is said of a left node that was never assigned
    w.leftNode.bind fun leftNode =>
      if m.next leftNode = w.leftNodeNext then
        some (.checkRight w rightNode,
          { m with next := update m.next leftNode (ref rightNode) })
      else some (.loadFirst { w with leftNodeNext := m.next leftNode }, m)
  | .checkRight w rightNode, m =>
    some (if (m.next rightNode).marked then .loadFirst w else searched m w rightNode, m)
  | .setNext w rightNode, m =>
    some (.link w rightNode, { m with next := update m.next w.newElem (ref rightNode) })
  | .link w rightNode, m =>
    w.leftNode.bind fun leftNode =>
      if m.next leftNode = ref rightNode then
        some (.idle, { m with
          next := update m.next leftNode (ref w.newElem)
          made := m.made.settle w.newElem })
      else some (listSearch w.newElem w.key, m)

def machine : Machine (Mem K V) (Pc K V) (Op K V) := ⟨call, run⟩

/-- Keys are inserted above the key of the head. -/
def aboveHead (s : Sys (Mem K V) (Pc K V)) : Act (Op K V) → Prop
  | .call _ (.insert key _) => s.mem.key s.mem.head < key
  | .run _ => True

instance (s : Sys (Mem K V) (Pc K V)) : (a : Act (Op K V)) → Decidable (aboveHead s a)
  | .call _ (.insert key _) => inferInstanceAs (Decidable (s.mem.key s.mem.head < key))
  | .run _ => .isTrue trivial

end

section

variable {K V : Type}

/-- The nodes from the head to the tail, without the tail. -/
def Mem.Nodes (m : Mem K V) : List Nat → Prop := Links (fun n => (m.next n).node) m.tail m.head

/-- The keys of the calls, as they begin. -/
def log (_ : Nat) (pc : Pc K V) (_ : Mem K V) (pc' : Pc K V) (called : List K) : List K :=
  match pc, pc' with
  | .idle, .newNode key _ => called ++ [key]
  | _, _ => called

def Quiet (s : Sys (Mem K V × List K) (Pc K V)) : Prop := ∀ t, s.loc t = .idle

/-- A list with the keys `keys`, in order and above that of the head, no node deleted, and
no call under way. -/
structure Starts [LinearOrder K] (keys : List K) (s : Sys (Mem K V × List K) (Pc K V)) : Prop where
  nodes : ∃ l, s.mem.1.Nodes (s.mem.1.head :: l) ∧ l.map s.mem.1.key = keys ∧
    ∀ n ∈ s.mem.1.tail :: s.mem.1.head :: l, s.mem.1.made.Settled n ∧ (s.mem.1.next n).marked = false
  sorted : (s.mem.1.key s.mem.1.head :: keys).Pairwise (· < ·)
  none_called : s.mem.2 = []
  quiet : Quiet s

end

end ShmPcc.SortedList
