import ShmPcc.Lib.History
import ShmPcc.Ref.CxlRefCount

/-!
# What goes through the message queues of cxl-shm

The history of the queues beside the machine of the reference counts: the objects that
were sent, from calls of `sent_to` that returned true, and those the receiver has got a
root reference for in `cxl_unwrap`.
-/

namespace ShmPcc.CxlRefCount

open Function

/-- `passed` is the object of the last call of `sent_to`, and `head` how often `start`
has moved on. -/
structure Transfers where
  sent : List Nat
  received : List Nat
  passed : Nat
  head : Nat
deriving DecidableEq

def Transfers.none : Transfers := ⟨[], [], 0, 0⟩

/-- The entry for a step. -/
def transfer (_ : Nat) (pc : Pc) (m : Mem) (_ : Pc) (x : Nat → Transfers) : Nat → Transfers :=
  match pc with
  | .sendRead q tbr => update x q { x q with passed := m.slot tbr }
  | .sendNext q => update x q { x q with sent := (x q).sent ++ [(x q).passed] }
  | .bump c _ =>
    match c.next with
    | .got q => update x q { x q with received := (x q).received ++ [m.slot c.ref] }
    | _ => x
  | .recvNext q => update x q { x q with head := (x q).head + 1 }
  | _ => x

/-- Reference counts and queues, with the history of the queues. -/
def transferMachine : Machine (Mem × (Nat → Transfers)) Pc Op := machine.record transfer

def transferFresh (s : Sys (Mem × (Nat → Transfers)) Pc) : Prop :=
  fresh s.forget ∧ ∀ q, s.mem.2 q = .none

/-- The messages that were sent and are not received yet. -/
def Transfers.inFlight (x : Transfers) : List Nat := x.sent.drop x.received.length

end ShmPcc.CxlRefCount
