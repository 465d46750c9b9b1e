import ShmPcc.Lib.Machine
import ShmPcc.Lib.Tally

/-!
# The handles of cxl-shm

A `CXLRef` is a handle of the program on an object in shared memory. Handles do not
refer to the object directly but to a root reference, a block of 16 bytes that counts
them; the root reference is one of the references the object counts. The last handle
drops the object's reference and gives the root reference back.

One thread makes its calls one after the other, so a call is one step. All handles are
of one shared memory, and `shm` is left out of them. The allocator is its lists of free
blocks; which of them it hands out, and the link it leaves in the first word of a freed
block, are parameters of the calls. Of `ref_info` only the count is here. `test_free`
goes down the embedded references and may not return, and has fuel.

The field below the line in `Mem` is history: the handles that were moved from and have
got no new value since.
-/

namespace ShmPcc.CxlRef

open Function

def sizeofCXLObj : Nat := 24

/-- A `uint16_t` goes up and down. -/
def inc (x : Nat) : Nat := (x + 1) % 2 ^ 16

def dec (x : Nat) : Nat := (x + (2 ^ 16 - 1)) % 2 ^ 16

structure RootRef where
  pptr : Nat
  inUse : Bool
  refCnt : Nat
deriving DecidableEq

structure CXLObj where
  refCnt : Nat
  embeddedRefCnt : Nat
deriving DecidableEq

structure Handle where
  tbr : Nat
  data : Nat
deriving DecidableEq

/-- The counted references: `pptr` of root references, and embedded ones. -/
inductive Slot where
  | pptr (tbr : Nat)
  | embedded (o i : Nat)

structure Mem where
  root : Nat → RootRef
  obj : Nat → CXLObj
  embedded : Nat → Nat → Nat
  freeRoots : List Nat
  freeObjs : List Nat
  handle : Nat → Option Handle
  -- history
  moved : Nat → Bool

namespace Mem

def setRoot (m : Mem) (t : Nat) (r : RootRef) : Mem := { m with root := update m.root t r }

def setObj (m : Mem) (o : Nat) (x : CXLObj) : Mem := { m with obj := update m.obj o x }

/-- The handle gets a value, or ceases to exist. -/
def setHandle (m : Mem) (h : Nat) (r : Option Handle) : Mem :=
  { m with handle := update m.handle h r, moved := update m.moved h false }

def setMoved (m : Mem) (h : Nat) : Mem := { m with moved := update m.moved h true }

def read (m : Mem) : Slot → Nat
  | .pptr t => (m.root t).pptr
  | .embedded o i => m.embedded o i

def write (m : Mem) (v : Nat) : Slot → Mem
  | .pptr t => m.setRoot t { m.root t with pptr := v }
  | .embedded o i =>
    { m with embedded := update m.embedded o (update (m.embedded o) i v) }

/-! ### Objects -/

def linkReference (m : Mem) (ref : Slot) (refed : Nat) : Mem :=
  (m.setObj refed { m.obj refed with refCnt := inc (m.obj refed).refCnt }).write refed ref

/-- `cxl_free` of an object -/
def freeObj (m : Mem) (o : Nat) : Mem := { m.setObj o ⟨0, 0⟩ with freeObjs := o :: m.freeObjs }

def unlinkReference (m : Mem) (ref : Slot) (refed : Nat) : Mem :=
  let refCnt := (m.obj refed).refCnt
  let m' := (m.setObj refed { m.obj refed with refCnt := dec refCnt }).write 0 ref
  -- the subtraction is one of `uint64_t`
  if refCnt ≠ 1 then m' else m'.freeObj refed

mutual

def testFree : Nat → Slot → Mem → Option Mem
  | 0, _, _ => none
  | fuel + 1, ref, m =>
    let refed := m.read ref
    if refed = 0 then some m
    else if (m.obj refed).refCnt ≠ 1 then some (m.unlinkReference ref refed)
    else (testFreeFrom fuel refed 0 m).map fun m' => m'.unlinkReference ref (m'.read ref)

/-- The loop over the embedded references, at `i`. -/
def testFreeFrom : Nat → Nat → Nat → Mem → Option Mem
  | 0, _, _, _ => none
  | fuel + 1, refed, i, m =>
    if i < (m.obj refed).embeddedRefCnt then
      (testFree fuel (.embedded refed i) m).bind (testFreeFrom fuel refed (i + 1))
    else some m

end

/-! ### Root references -/

/-- `block_to_tbr` of the block that was taken -/
def blockToTbr (m : Mem) (t : Nat) : Mem :=
  { m.setRoot t ⟨0, true, 0⟩ with freeRoots := m.freeRoots.erase t }

def linkBlockToTbr (m : Mem) (b t : Nat) : Mem :=
  m.setRoot t { m.root t with pptr := b, refCnt := inc (m.root t).refCnt }

def blockToCxlobj (m : Mem) (b embeddedRefCnt : Nat) : Mem :=
  { m.setObj b ⟨1, embeddedRefCnt⟩ with freeObjs := m.freeObjs.erase b }

/-- `cxl_free` of a root reference, after `in_use` was cleared -/
def freeRoot (m : Mem) (t link : Nat) : Mem :=
  { m.setRoot t ⟨link, false, 0⟩ with freeRoots := t :: m.freeRoots }

/-- One handle more on the root reference, if there is one. -/
def retain (m : Mem) (t : Nat) : Mem :=
  if t ≠ 0 then m.setRoot t { m.root t with refCnt := inc (m.root t).refCnt } else m

end Mem

/-! ### Handles -/

inductive Op where
  | cxlMalloc (h tbr block embeddedRefCnt : Nat)
  | getRef (h tbr offset : Nat)
  | copyConstruct (h src : Nat)
  | moveConstruct (h src : Nat)
  | copyAssign (h src : Nat)
  | moveAssign (h src : Nat)
  | destroy (h link : Nat)

namespace Mem

def cxlMalloc (m : Mem) (h t b embeddedRefCnt : Nat) : Mem :=
  (((m.blockToTbr t).linkBlockToTbr b t).blockToCxlobj b embeddedRefCnt).setHandle h
    (some ⟨t, b + sizeofCXLObj⟩)

def getRef (m : Mem) (h t offset : Nat) : Mem :=
  let m' := (m.blockToTbr t).linkReference (.pptr t) offset
  (m'.setRoot t { m'.root t with refCnt := inc (m'.root t).refCnt }).setHandle h
    (some ⟨t, (m'.root t).pptr + sizeofCXLObj⟩)

/-- The destructor, of a handle with this value. -/
def destroy (m : Mem) (fuel h : Nat) (r : Handle) (link : Nat) : Option Mem :=
  if r.tbr = 0 ∧ r.data = 0 then some (m.setHandle h none)
  else
    let refCnt := dec (m.root r.tbr).refCnt
    let m' := m.setRoot r.tbr { m.root r.tbr with refCnt := refCnt }
    if refCnt ≠ 0 then some (m'.setHandle h none)
    else (m'.testFree fuel (.pptr r.tbr)).map fun m'' => (m''.freeRoot r.tbr link).setHandle h none

end Mem

/-- A handle is constructed where there is none, and the others exist. A moved-from
handle keeps its value. -/
def step (fuel : Nat) : Op → Mem → Option Mem
  | .cxlMalloc h t b embeddedRefCnt, m =>
    if m.handle h = none ∧ t ∈ m.freeRoots ∧ b ∈ m.freeObjs then
      some (m.cxlMalloc h t b embeddedRefCnt)
    else none
  | .getRef h t offset, m =>
    if m.handle h = none ∧ t ∈ m.freeRoots then some (m.getRef h t offset) else none
  | .copyConstruct h src, m =>
    match m.handle h, m.handle src with
    | none, some r => some ((m.setHandle h (some r)).retain r.tbr)
    | _, _ => none
  | .moveConstruct h src, m =>
    match m.handle h, m.handle src with
    | none, some r => some ((m.setHandle h (some r)).setMoved src)
    | _, _ => none
  | .copyAssign h src, m =>
    match m.handle h, m.handle src with
    | some _, some r => some ((m.setHandle h (some r)).retain r.tbr)
    | _, _ => none
  | .moveAssign h src, m =>
    match m.handle h, m.handle src with
    | some _, some r => some ((m.setHandle h (some r)).setMoved src)
    | _, _ => none
  | .destroy h link, m =>
    match m.handle h with
    | some r => m.destroy fuel h r link
    | none => none

def machine (fuel : Nat) : Machine Mem Unit Op := .ofSteps (step fuel)

/-- `roots` are the blocks for root references. No handle exists, none of the blocks is
in use, and the embedded references are 0. -/
def fresh (roots : List Nat) (s : Sys Mem Unit) : Prop :=
  roots.Nodup ∧ 0 ∉ roots ∧ s.mem.freeRoots = roots ∧ (∀ t, (s.mem.root t).inUse = false) ∧ (∀ h, s.mem.handle h = none) ∧
    (∀ h, s.mem.moved h = false) ∧ ∀ o i, s.mem.embedded o i = 0

/-- The root reference a live handle counts for; 0 for a moved-from one. -/
def Mem.counted (m : Mem) (h : Nat) : Nat :=
  match m.handle h with
  | some r => if m.moved h then 0 else r.tbr
  | none => 0

/-- The number of live handles on a root reference. -/
noncomputable def Mem.liveHandles (m : Mem) (t : Nat) : Nat := tally m.counted t

/-- A call gives the root reference back. -/
def released (t : Nat) (m m' : Mem) : Prop :=
  (m.root t).inUse = true ∧ (m'.root t).inUse = false ∧ t ∈ m'.freeRoots

/-- Nothing is done with a moved-from handle but an assignment to it, only to those is
assigned, and counts do not wrap. -/
def careful (m : Mem) : Op → Bool
  | .cxlMalloc .. | .getRef .. => true
  | .copyConstruct _ src => !m.moved src && (m.root (m.counted src)).refCnt + 1 < 2 ^ 16
  | .moveConstruct _ src => !m.moved src
  | .copyAssign h src => m.moved h && !m.moved src && (m.root (m.counted src)).refCnt + 1 < 2 ^ 16
  | .moveAssign h src => m.moved h && !m.moved src
  | .destroy h _ => !m.moved h

def carefully (s : Sys Mem Unit) : Act Op → Prop
  | .call _ op => careful s.mem op = true
  | .run _ => True

instance (s : Sys Mem Unit) : (a : Act Op) → Decidable (carefully s a)
  | .call _ _ => inferInstanceAs (Decidable (_ = true))
  | .run _ => .isTrue trivial

end ShmPcc.CxlRef
