import ShmPcc.Ref.PerformGc

/-!
# Batched and plain garbage collection agree

The garbage list of a thread is a chain of nodes behind the header (`Garbage`). The batched
loop counts the nodes it collected and then unlinks that many from the front without
looking at their epochs again. They are the nodes it collected because nothing else has
unlinked one in between: what a loop does is said of a list `b ++ l` that begins with them.
-/

namespace ShmPcc.PerformGc

open Function

variable {nodes : Nat → Option GarbageNode} {m : Mem} {limit fuel minEpoch first : Nat}

/-- A node of the list: its address and what it says. -/
structure Item where
  p : Nat
  deleteEpoch : Nat
  nodeP : Nat
deriving DecidableEq

variable {x z : Item} {l : List Item}

/-- The nodes from an address on. -/
def Chained (nodes : Nat → Option GarbageNode) : Nat → List Item → Prop
  | a, [] => a = 0
  | a, x :: l => a = x.p ∧ a ≠ 0 ∧
      ∃ next, nodes a = some ⟨x.deleteEpoch, x.nodeP, next⟩ ∧ Chained nodes next l

theorem Chained.congr {nodes' : Nat → Option GarbageNode} : ∀ {l : List Item} {a : Nat},
    Chained nodes a l → (∀ x ∈ l, nodes' x.p = nodes x.p) → Chained nodes' a l
  | [], _, h, _ => h
  | x :: l, _, ⟨rfl, hne, next, hx, h⟩, heq =>
    ⟨rfl, hne, next, (heq x (by simp)).trans hx, h.congr fun y hy => heq y (by simp [hy])⟩

theorem Chained.exists_of_mem : ∀ {l : List Item} {a : Nat}, Chained nodes a l → x ∈ l →
    (nodes x.p).isSome
  | y :: l, _, ⟨rfl, _, next, hy, h⟩, hx => by
    obtain rfl | hx := List.mem_cons.mp hx
    · simp [hy]
    · exact h.exists_of_mem hx

/-- A new node behind the last one. -/
theorem Chained.append (hz : z.p ≠ 0) (hfree : nodes z.p = none) : ∀ {l : List Item} {a : Nat}
    {x : Item}, Chained nodes a (x :: l) → ((x :: l).map Item.p).Nodup → ∃ last,
      nodes (l.getLastD x).p = some last ∧
      Chained (update (update nodes z.p (some ⟨z.deleteEpoch, z.nodeP, 0⟩)) (l.getLastD x).p
        (some { last with nextP := z.p })) a (x :: l ++ [z])
  | [], _, x, ⟨rfl, hne, next, hx, _⟩, _ => by
    have hzx : z.p ≠ x.p := fun heq => by simp [← heq, hfree] at hx
    exact ⟨_, hx, rfl, hne, z.p, by simp, rfl, hz, 0, by simp [update_of_ne hzx], rfl⟩
  | y :: l, _, x, ⟨rfl, hne, next, hx, h⟩, hnd => by
    obtain ⟨hmem, hnd⟩ := List.nodup_cons.mp hnd
    obtain ⟨last, hlast, hall⟩ := Chained.append hz hfree h hnd
    rw [List.getLastD_cons]
    refine ⟨last, hlast, rfl, hne, next, ?_, hall⟩
    have hxl : x.p ≠ (l.getLastD y).p := fun heq =>
      hmem (heq ▸ List.mem_map_of_mem (List.getLastD_mem_cons ..))
    rw [update_of_ne hxl, update_of_ne, hx]
    intro heq
    simp [heq, hfree] at hx

/-- The header points to `first`, which heads the list `l`. -/
structure Held (m : Mem) (first : Nat) (l : List Item) : Prop where
  header : ∃ deleteEpoch nodeP, m.nodes headerP = some ⟨deleteEpoch, nodeP, first⟩
  chained : Chained m.nodes first l
  nodup : (headerP :: l.map Item.p).Nodup
  count : m.nodeCount = l.length

/-- The garbage list is `l`, ready for the next node. -/
def Garbage (m : Mem) (l : List Item) : Prop :=
  (∃ first, Held m first l) ∧ m.lastP = (l.getLast?.map Item.p).getD headerP

/-- What a loop leaves: the list `l`, and its `events` behind the earlier ones. -/
def Leaves (m : Mem) (l : List Item) (events : List Event) (r : Option (Nat × Mem)) : Prop :=
  ∃ first m', r = some (first, m') ∧ Held m' first l ∧ m'.events = m.events ++ events ∧
    m'.lastP = m.lastP

theorem Held.leaves (h : Held m first l) : Leaves m l [] (some (first, m)) :=
  ⟨first, m, rfl, h, by simp, rfl⟩

/-- One loop after another. -/
theorem Leaves.bind {l' : List Item} {ev ev' : List Event} {r : Option (Nat × Mem)}
    {f : Nat × Mem → Option (Nat × Mem)} (h : Leaves m l ev r)
    (hf : ∀ first m', Held m' first l → Leaves m' l' ev' (f (first, m'))) :
    Leaves m l' (ev ++ ev') (r.bind f) := by
  obtain ⟨first, m', rfl, hheld, hev, hlast⟩ := h
  obtain ⟨first', m'', hr, hheld', hev', hlast'⟩ := hf first m' hheld
  exact ⟨first', m'', hr, hheld', by rw [hev', hev, List.append_assoc], hlast'.trans hlast⟩

theorem reclaimFirst_leaves (h : Held m first (x :: l)) :
    Leaves m l [.free x.nodeP] (reclaimFirst first m) := by
  obtain ⟨⟨e, n, hheader⟩, ⟨rfl, hne, next, hx, hl⟩, hnd, hcount⟩ := h
  obtain ⟨hxh, hnd⟩ := List.nodup_cons.mp hnd
  obtain ⟨hxl, hndl⟩ := List.nodup_cons.mp hnd
  simp only [List.map_cons, List.mem_cons, not_or] at hxh
  refine ⟨next, { m with
      nodes := update (update m.nodes headerP (some ⟨e, n, next⟩)) x.p none
      nodeCount := l.length
      events := m.events ++ [.free x.nodeP] },
    by simp [reclaimFirst, reclaimOne, hx, hheader, hcount, hxh.1],
    ⟨⟨e, n, by simp [hxh.1]⟩, hl.congr fun y hy => ?_, ?_, rfl⟩, rfl, rfl⟩
  · have hyp : y.p ∈ l.map Item.p := List.mem_map_of_mem hy
    have hyh : y.p ≠ headerP := fun heq => hxh.2 (heq ▸ hyp)
    have hyx : y.p ≠ x.p := fun heq => hxl (heq ▸ hyp)
    simp [hyh, hyx]
  · exact List.nodup_cons.mpr ⟨hxh.2, hndl⟩

/-- `PerformGC` frees this node. -/
def Item.below (minEpoch : Nat) (x : Item) : Bool := x.deleteEpoch < minEpoch

theorem reclaimable_nil (h : Held m first []) : reclaimable minEpoch first m = some false :=
  if_pos h.chained

theorem reclaimable_cons (h : Chained m.nodes first (x :: l)) :
    reclaimable minEpoch first m = some (x.below minEpoch) := by
  obtain ⟨-, hne, next, hx, -⟩ := h
  simp [reclaimable, hne, hx, Item.below]

theorem plainLoop_leaves : ∀ {l : List Item} {fuel first : Nat} {m : Mem}, Held m first l →
    l.length < fuel → Leaves m (l.dropWhile (Item.below minEpoch))
      ((l.takeWhile (Item.below minEpoch)).map (.free ·.nodeP)) (plainLoop minEpoch fuel first m)
  | [], fuel + 1, first, m, h, _ => by
    simpa [plainLoop, reclaimable_nil h] using h.leaves
  | x :: l, fuel + 1, first, m, h, hfuel => by
    cases hx : x.below minEpoch with
    | true =>
      have := (reclaimFirst_leaves h).bind (f := fun r => plainLoop minEpoch fuel r.1 r.2)
        fun _ _ h' => plainLoop_leaves h' (Nat.lt_of_succ_lt_succ hfuel)
      simpa [plainLoop, reclaimable_cons h.chained, hx] using this
    | false => simpa [plainLoop, reclaimable_cons h.chained, hx] using h.leaves

theorem collectBatch_eq : ∀ {room first : Nat} {l : List Item}, Chained m.nodes first l →
    collectBatch minEpoch m room first =
      some (((l.takeWhile (Item.below minEpoch)).take room).map Item.nodeP)
  | 0, _, _, _ => by simp [collectBatch]
  | room + 1, first, [], h => by
    simp [collectBatch, reclaimable, show first = 0 from h]
  | room + 1, first, x :: l, h => by
    obtain ⟨rfl, hne, next, hx, hl⟩ := id h
    cases hb : x.below minEpoch with
    | true => simp [collectBatch, reclaimable_cons h, hb, hx, collectBatch_eq hl]
    | false => simp [collectBatch, reclaimable_cons h, hb]

theorem reclaimBatch_leaves : ∀ {b : List Item} {first : Nat} {m : Mem}, Held m first (b ++ l) →
    Leaves m l (b.map (.free ·.nodeP)) (reclaimBatch b.length first m)
  | [], _, _, h => h.leaves
  | _ :: _, _, _, h => (reclaimFirst_leaves h).bind fun _ _ h' => reclaimBatch_leaves h'

/-- How a run frees `l`: with the worker in batches, each flushed before a node of it is freed. -/
def Freed (limit : Nat) (l : List Item) (events : List Event) : Bool → Prop
  | false => events = l.map (.free ·.nodeP)
  | true => ∃ batches : List (List Item), batches.flatten = l ∧ (∀ b ∈ batches, b.length ≤ limit) ∧
      events = batches.flatMap fun b => .submit (b.map Item.nodeP) :: b.map (.free ·.nodeP)

theorem batchLoop_leaves (minEpoch : Nat) (hlimit : 1 ≤ limit) :
    ∀ {fuel : Nat} {l : List Item} {first : Nat} {m : Mem}, Held m first l → l.length < fuel →
      ∃ events, Freed limit (l.takeWhile (Item.below minEpoch)) events true ∧
        Leaves m (l.dropWhile (Item.below minEpoch)) events (batchLoop limit minEpoch fuel first m)
  | fuel + 1, [], first, m, h, _ =>
    ⟨[], ⟨[], by simp⟩, by simpa [batchLoop, reclaimable_nil h] using h.leaves⟩
  | fuel + 1, x :: l, first, m, h, hfuel => by
    cases hx : x.below minEpoch with
    | false =>
      exact ⟨[], ⟨[], by simp [hx]⟩, by simpa [batchLoop, reclaimable_cons h.chained, hx] using h.leaves⟩
    | true =>
      obtain ⟨b, hb⟩ : ∃ b, b = ((x :: l).takeWhile (Item.below minEpoch)).take limit := ⟨_, rfl⟩
      have hbatch : collectBatch minEpoch m limit first = some (b.map Item.nodeP) :=
        hb ▸ collectBatch_eq h.chained
      have hpos : 1 ≤ b.length ∧ b.length ≤ limit := by
        simp [hb, hx]
        omega
      have hbelow : ∀ y ∈ b, y.below minEpoch := by
        intro y hy
        rw [hb] at hy
        exact List.mem_takeWhile_imp (List.mem_of_mem_take hy)
      obtain ⟨rest, hrest⟩ : b <+: x :: l := by
        rw [hb]
        exact (List.take_prefix _ _).trans (List.takeWhile_prefix _)
      have hlen := congrArg List.length hrest
      rw [List.length_append] at hlen
      have hshort : rest.length < fuel := by omega
      -- the nodes of the batch are unlinked, and the loop goes on with the others
      obtain ⟨first', m', hr, hheld, hev, hlast⟩ := reclaimBatch_leaves (b := b) (l := rest)
        (m := { m with events := m.events ++ [.submit (b.map Item.nodeP)] })
        ⟨h.header, hrest ▸ h.chained, hrest ▸ h.nodup, hrest ▸ h.count⟩
      obtain ⟨_, ⟨batches, hflat, hlim, rfl⟩, first'', m'', hr', hheld', hev', hlast'⟩ :=
        batchLoop_leaves minEpoch hlimit hheld hshort
      rw [← hrest, List.takeWhile_append_of_pos hbelow, List.dropWhile_append_of_pos hbelow]
      refine ⟨_, ⟨b :: batches, by rw [List.flatten_cons, hflat], ?_, rfl⟩, first'', m'', ?_, hheld', ?_, ?_⟩
      · intro c hc
        obtain rfl | hc := List.mem_cons.mp hc
        · exact hpos.2
        · exact hlim c hc
      · simp [batchLoop, reclaimable_cons h.chained, hx, hbatch, hr, hr']
      · simp [hev', hev]
      · rw [hlast', hlast]

theorem performGC_returns (isEnabled : Bool) (minEpoch : Nat) (h : Garbage m l) (hlimit : 1 ≤ limit)
    (hfuel : l.length < fuel) : ∃ m' events, performGC isEnabled limit fuel minEpoch m = some m' ∧
      m'.events = m.events ++ events ∧ Freed limit (l.takeWhile (Item.below minEpoch)) events isEnabled ∧
      Garbage m' (l.dropWhile (Item.below minEpoch)) := by
  obtain ⟨⟨first, hheld⟩, hlast⟩ := h
  obtain ⟨e, n, hheader⟩ := hheld.header
  obtain ⟨events, hfreed, first', m', hr, hheld', hev, hlast'⟩ : ∃ events,
      Freed limit (l.takeWhile (Item.below minEpoch)) events isEnabled ∧
      Leaves m (l.dropWhile (Item.below minEpoch)) events (if isEnabled
        then batchLoop limit minEpoch fuel first m else plainLoop minEpoch fuel first m) := by
    cases isEnabled with
    | false => exact ⟨_, rfl, plainLoop_leaves hheld hfuel⟩
    | true => exact batchLoop_leaves minEpoch hlimit hheld hfuel
  have hrun : performGC isEnabled limit fuel minEpoch m =
      some (if first' = 0 then { m' with lastP := headerP } else m') := by
    cases isEnabled <;> simp_all [performGC]
  refine ⟨_, events, hrun, by split <;> exact hev, hfreed, ?_⟩
  cases hrest : l.dropWhile (Item.below minEpoch) with
  | nil =>
    rw [hrest] at hheld'
    rw [if_pos (show first' = 0 from hheld'.chained)]
    exact ⟨⟨first', hheld'.header, hheld'.chained, hheld'.nodup, hheld'.count⟩, rfl⟩
  | cons y rest =>
    rw [hrest] at hheld'
    rw [if_neg hheld'.chained.2.1]
    refine ⟨⟨first', hheld'⟩, ?_⟩
    rw [hlast', hlast, ← List.takeWhile_append_dropWhile (p := Item.below minEpoch) (l := l), hrest]
    simp [List.getLast?_cons]

theorem append_garbage (h : Garbage m l) (hz : z.p ≠ 0) (hfree : m.nodes z.p = none) :
    ∃ m', append z.p z.deleteEpoch z.nodeP m = some m' ∧ Garbage m' (l ++ [z]) := by
  obtain ⟨⟨first, ⟨e, n, hheader⟩, hchained, hnd, hcount⟩, hlast⟩ := h
  have hall : Chained m.nodes headerP (⟨headerP, e, n⟩ :: l) := ⟨rfl, by decide, first, hheader, hchained⟩
  obtain ⟨last, hget, hnew⟩ := hall.append hz hfree hnd
  have hlast' : (l.getLastD ⟨headerP, e, n⟩).p = m.lastP := by
    rw [hlast, List.getLastD_eq_getLast?]
    cases l.getLast? <;> rfl
  rw [hlast'] at hget hnew
  obtain ⟨-, -, next, hheader', hchained'⟩ := id hnew
  have hfresh : z.p ∉ headerP :: l.map Item.p := by
    intro hmem
    obtain ⟨x, hx, hp⟩ := List.mem_map.mp
      (show z.p ∈ ((⟨headerP, e, n⟩ : Item) :: l).map Item.p from hmem)
    have := hall.exists_of_mem hx
    simp [hp, hfree] at this
  refine ⟨_, Option.bind_eq_some_iff.mpr ⟨last, hget, rfl⟩,
    ⟨next, ⟨e, n, hheader'⟩, hchained', ?_, by simp [hcount]⟩, by simp⟩
  rw [List.map_append, ← List.cons_append]
  exact hnd.append (List.nodup_singleton _) (by simpa using hfresh)

/-- What calls to `AddGarbageNode` and `PerformGC` leave. The allocator returns an address
that is not in use, and the loops have fuel for the whole list. -/
inductive Built : Mem → Prop
  | new : Built Mem.new
  | add {isEnabled : Bool} {limit fuel minEpoch : Nat} {z : Item} {m m' : Mem} (h : Built m)
      (hlimit : 1 ≤ limit) (hfuel : m.nodeCount + 1 < fuel) (hz : z.p ≠ 0) (hfree : m.nodes z.p = none)
      (hrun : addGarbageNode isEnabled limit fuel minEpoch z.p z.deleteEpoch z.nodeP m = some m') : Built m'
  | collect {isEnabled : Bool} {limit fuel minEpoch : Nat} {m m' : Mem} (h : Built m)
      (hlimit : 1 ≤ limit) (hfuel : m.nodeCount < fuel)
      (hrun : performGC isEnabled limit fuel minEpoch m = some m') : Built m'

theorem Garbage.count (h : Garbage m l) : m.nodeCount = l.length := by
  obtain ⟨⟨_, hheld⟩, -⟩ := h
  exact hheld.count

theorem Built.garbage (h : Built m) : ∃ l, Garbage m l := by
  induction h with
  | new => exact ⟨[], ⟨0, ⟨0, 0, rfl⟩, rfl, by simp, rfl⟩, rfl⟩
  | @add isEnabled limit fuel minEpoch z m m' _ hlimit hfuel hz hfree hrun ih =>
    obtain ⟨l, hl⟩ := ih
    obtain ⟨m₁, hrun₁, hl₁⟩ := append_garbage hl hz hfree
    obtain ⟨m₂, -, hrun₂, -, -, hl₂⟩ := performGC_returns isEnabled minEpoch hl₁ hlimit
      (by simpa [← hl.count] using hfuel)
    simp only [addGarbageNode, hrun₁, Option.bind_eq_bind, Option.bind_some, hrun₂] at hrun
    split at hrun
    · exact ⟨_, Option.some.inj hrun ▸ hl₂⟩
    · exact ⟨_, Option.some.inj hrun ▸ hl₁⟩
  | @collect isEnabled limit fuel minEpoch m m' _ hlimit hfuel hrun ih =>
    obtain ⟨l, hl⟩ := ih
    obtain ⟨m₁, -, hrun₁, -, -, hl₁⟩ := performGC_returns isEnabled minEpoch hl hlimit (hl.count ▸ hfuel)
    exact ⟨_, Option.some.inj (hrun₁.symm.trans hrun) ▸ hl₁⟩

/-- With the flush worker and without it, `PerformGC` returns and frees the longest beginning
of the list whose epochs are below `min_epoch`, in order. What remains is the rest of the
list, and the next node is appended to it. -/
theorem performGC_batched_eq_plain (h : Built m) (hlimit : 1 ≤ limit) (hfuel : m.nodeCount < fuel) :
    ∃ l, Garbage m l ∧ ∀ isEnabled, ∃ m' events,
      performGC isEnabled limit fuel minEpoch m = some m' ∧ m'.events = m.events ++ events ∧
      Freed limit (l.takeWhile (Item.below minEpoch)) events isEnabled ∧
      Garbage m' (l.dropWhile (Item.below minEpoch)) ∧
      ∀ z : Item, z.p ≠ 0 → m'.nodes z.p = none →
        ∃ m'', append z.p z.deleteEpoch z.nodeP m' = some m'' ∧
          Garbage m'' (l.dropWhile (Item.below minEpoch) ++ [z]) := by
  obtain ⟨l, hl⟩ := h.garbage
  refine ⟨l, hl, fun isEnabled => ?_⟩
  obtain ⟨m', events, hrun, hev, hfreed, hm'⟩ :=
    performGC_returns isEnabled minEpoch hl hlimit (hl.count ▸ hfuel)
  exact ⟨m', events, hrun, hev, hfreed, hm', fun z => append_garbage hm'⟩

/-- Two nodes, of which the first is below `min_epoch`. -/
theorem performGC_batched_eq_plain_twoNodes : ∃ m m', Built m ∧ m.nodeCount = 2 ∧
    performGC true 1 3 6 m = some m' ∧ m'.events = [.submit [20], .free 20] := by
  have h₁ := Built.new.add (z := ⟨2, 5, 20⟩) (by decide) (by decide) (by decide) rfl
    (show addGarbageNode false 9 9 0 _ _ _ _ = some _ from rfl)
  have h₂ := h₁.add (z := ⟨3, 7, 30⟩) (by decide) (by decide) (by decide) rfl
    (show addGarbageNode false 9 9 0 _ _ _ _ = some _ from rfl)
  obtain ⟨_, -, hall⟩ := performGC_batched_eq_plain h₂ (show 1 ≤ 1 by decide) (show _ < 3 by decide)
  obtain ⟨m', _, hrun, -⟩ := hall true
  exact ⟨_, m', h₂, rfl, hrun, by rw [← Option.some.inj hrun]; rfl⟩

end ShmPcc.PerformGc
