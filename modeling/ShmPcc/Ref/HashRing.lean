import Mathlib

/-!
# The consistent hash ring of consistent_hash.h

`HashRing` keeps points on a ring of hashes in a `std::map` from points to nodes, and for
each node the vector of its points. A key belongs to the node of the first point from its
hash on, or of the first point of all if there is none behind it.

The map is the list of its elements in the order of the points. What `Random64` draws for
the points of a node and the hash of a key are parameters. `GetNode` on an empty ring
dereferences the end of the map, here `none`.
-/

namespace ShmPcc

open Function

structure HashRing where
  ring : List (Nat × Nat)
  virtualNodes : Nat → Option (List Nat)

namespace HashRing

/-- The constructor without arguments. -/
def empty : HashRing := ⟨[], fun _ => none⟩

/-- `VIRT_uint32_tODE_MULTIPLIER` -/
def virtNodeMultiplier : Nat := 64

/-- `ring_[hash_point] = node` -/
def setPoint (hashPoint node : Nat) (ring : List (Nat × Nat)) : List (Nat × Nat) :=
  ring.filter (·.1 < hashPoint) ++ (hashPoint, node) :: ring.filter (hashPoint < ·.1)

def addPoint (node : Nat) (r : HashRing) (hashPoint : Nat) : HashRing where
  ring := setPoint hashPoint node r.ring
  virtualNodes := update r.virtualNodes node
    (some ((r.virtualNodes node).getD [] ++ [hashPoint]))

def addNode (r : HashRing) (node : Nat) (random64 : Nat → Nat) : HashRing :=
  ((List.range virtNodeMultiplier).map random64).foldl (addPoint node)
    { r with virtualNodes := update r.virtualNodes node (some []) }

def removeNode (r : HashRing) (node : Nat) : HashRing where
  ring := ((r.virtualNodes node).getD []).foldl (fun ring n => ring.filter fun x => x.1 != n) r.ring
  virtualNodes := update r.virtualNodes node none

def getNode (r : HashRing) (hash : Nat → Nat) (key : Nat) : Option Nat :=
  match r.ring.find? fun x => hash key ≤ x.1 with
  | none => r.ring.head?.map Prod.snd
  | some it => some it.2

end HashRing

end ShmPcc
