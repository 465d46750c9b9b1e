import ShmPcc.Ref.MpmcQueue

/-!
# The ticket queue hands every item over exactly once

The turn of a slot is the only guard of its element, so the invariant ties
every ticket to the turn of its slot. A ticket of the tail that is not drawn
yet, or whose enqueue still waits, has the turn of its slot at or below
`2 * turn t`; a ticket of the head that is not taken yet, or whose dequeue
still waits, at or below `2 * turn h + 1`. An operation past its wait loop
found equality, and equality stays until it moves the turn itself: two tickets
of one slot differ in their round, so nobody else was invited by the same turn.

`Inv` is the part of this about the shared state and `At` the part about one
thread at its program counter. `Inv` speaks of the history as well: what is in
a slot between the store of the enqueue and the load of the dequeue is the item
that came with the ticket.
-/

namespace ShmPcc.MpmcQueue

open Function

variable {T : Type} {C : Config T} {m : Mem T}

variable {i : Nat}

theorem Config.ticket_ext {j : Nat} (hidx : C.idx i = C.idx j) (hturn : C.turn i = C.turn j) :
    i = j := by
  rw [← Nat.div_add_mod i C.capacity, ← Nat.div_add_mod j C.capacity]
  exact congrArg₂ (fun a b => C.capacity * a + b) hturn hidx

theorem Config.turn_lt {j : Nat} (hidx : C.idx i = C.idx j) (hlt : i < j) : C.turn i < C.turn j :=
  lt_of_le_of_ne (Nat.div_le_div_right hlt.le) fun h => hlt.ne (C.ticket_ext hidx h)

/-- The turn of the slot that serves a ticket. -/
def slotTurn (C : Config T) (s : Nat → Slot T) (i : Nat) : Nat := (s (C.idx i)).turn

/-- The element in the slot that serves a ticket. -/
def slotValue (C : Config T) (s : Nat → Slot T) (i : Nat) : T := (s (C.idx i)).value

/-- The tickets for which something was returned. -/
def Mem.served (m : Mem T) : List Nat := m.returned.map fun x => x.2.1

theorem slotTurn_congr {s : Nat → Slot T} {j : Nat} (h : C.idx i = C.idx j) :
    slotTurn C s i = slotTurn C s j := by
  rw [slotTurn, slotTurn, h]

variable {t : Nat}

@[simp] theorem slotTurn_setTurn {r : Nat} :
    slotTurn C (m.setTurn (C.idx t) r).slots i = if C.idx i = C.idx t then r else slotTurn C m.slots i := by
  by_cases h : C.idx i = C.idx t <;> simp [slotTurn, Mem.setTurn, h]

@[simp] theorem slotTurn_setValue {v : T} :
    slotTurn C (m.setValue (C.idx t) v).slots i = slotTurn C m.slots i := by
  by_cases h : C.idx i = C.idx t <;> simp [slotTurn, Mem.setValue, h]

@[simp] theorem slotValue_setTurn {r : Nat} :
    slotValue C (m.setTurn (C.idx t) r).slots i = slotValue C m.slots i := by
  by_cases h : C.idx i = C.idx t <;> simp [slotValue, Mem.setTurn, h]

@[simp] theorem slotValue_setValue {v : T} :
    slotValue C (m.setValue (C.idx t) v).slots i = if C.idx i = C.idx t then v else slotValue C m.slots i := by
  by_cases h : C.idx i = C.idx t <;> simp [slotValue, Mem.setValue, h]

/-! ## The invariant -/

structure Inv (C : Config T) (m : Mem T) : Prop where
  drawn_length : m.drawn.length = m.tail
  taken_length : m.taken.length = m.head
  tail_early : ∀ t, m.tail ≤ t → slotTurn C m.slots t ≤ C.turn t * 2
  head_early : ∀ h, m.head ≤ h → slotTurn C m.slots h ≤ C.turn h * 2 + 1
  stored_lt : ∀ t ∈ m.stored, t < m.tail
  fetched_lt : ∀ h ∈ m.fetched, h < m.head
  served_lt : ∀ h ∈ m.served, h < m.head
  /-- A stored item is in its slot until it is fetched. -/
  kept : ∀ t ∈ m.stored, t ∉ m.fetched →
    (slotTurn C m.slots t = C.turn t * 2 ∨ slotTurn C m.slots t = C.turn t * 2 + 1) ∧
      ∃ w, m.drawn[t]? = some (w, slotValue C m.slots t)
  /-- A turn that invites a dequeue was set after the item was stored. -/
  invited : ∀ t, slotTurn C m.slots t = C.turn t * 2 + 1 → t ∈ m.stored
  ready : ∀ t ∈ m.published, t ∉ m.fetched → slotTurn C m.slots t = C.turn t * 2 + 1
  returned_item : ∀ u h v, (u, h, v) ∈ m.returned →
    m.taken[h]? = some u ∧ ∃ w, m.drawn[h]? = some (w, v)
  served_once : m.served.Nodup

/-- Thread `u` holds ticket `t` of the tail. -/
structure Enq (C : Config T) (m : Mem T) (u : Nat) (item : T) (t : Nat) : Prop where
  drew : m.drawn[t]? = some (u, item)
  early : slotTurn C m.slots t ≤ C.turn t * 2

/-- Thread `u` holds ticket `h` of the head. -/
structure Deq (C : Config T) (m : Mem T) (u h : Nat) : Prop where
  took : m.taken[h]? = some u
  early : slotTurn C m.slots h ≤ C.turn h * 2 + 1
  unserved : h ∉ m.served

/-- What a thread knows where it stands. -/
def Pc.At (C : Config T) (u : Nat) : Pc T → Mem T → Prop
  | .enqueueWait item t, m => Enq C m u item t ∧ t ∉ m.stored
  | .enqueueStore item t, m =>
    Enq C m u item t ∧ slotTurn C m.slots t = C.turn t * 2 ∧ t ∉ m.stored
  | .enqueueClwb item t, m | .enqueuePublish item t, m =>
    Enq C m u item t ∧ slotTurn C m.slots t = C.turn t * 2 ∧ t ∈ m.stored
  | .dequeueWait h, m => Deq C m u h ∧ h ∉ m.fetched
  | .dequeueClflush h, m | .dequeueLoad h, m =>
    Deq C m u h ∧ slotTurn C m.slots h = C.turn h * 2 + 1 ∧ h ∉ m.fetched
  | .dequeueMove h item, m | .dequeueRelease h item, m =>
    Deq C m u h ∧ slotTurn C m.slots h = C.turn h * 2 + 1 ∧ h ∈ m.fetched ∧
      ∃ w, m.drawn[h]? = some (w, item)
  | .tryCas h, m => C.turn h * 2 + 1 ≤ slotTurn C m.slots h
  | _, _ => True

/-- The ticket of the head that a thread holds. -/
def Pc.headTicket : Pc T → Option Nat
  | .dequeueWait h | .dequeueClflush h | .dequeueLoad h | .dequeueMove h _
  | .dequeueRelease h _ => some h
  | _ => none

/-- The assertion of thread `u`: its place, and that it still holds every
ticket it took and did not serve. -/
def Knows (C : Config T) (u : Nat) (pc : Pc T) (m : Mem T) : Prop :=
  pc.At C u m ∧ ∀ h, m.taken[h]? = some u → h ∉ m.served → pc.headTicket = some h

/-! ## What one access does -/

/-- The changes thread `u` makes to the shared state, with what it knows then. -/
inductive Move (C : Config T) (u : Nat) (m : Mem T) : Mem T → Prop where
  | quiet : Move C u m m
  | draw (item : T) : Move C u m { m with tail := m.tail + 1, drawn := m.drawn ++ [(u, item)] }
  | take : Move C u m { m with head := m.head + 1, taken := m.taken ++ [u] }
  | store {item : T} {t : Nat} (h : (Pc.enqueueStore item t).At C u m) :
      Move C u m { m.setValue (C.idx t) item with stored := m.stored ++ [t] }
  | publish {item : T} {t : Nat} (h : (Pc.enqueuePublish item t).At C u m) : Move C u m
        { m.setTurn (C.idx t) (C.turn t * 2 + 1) with published := m.published ++ [t] }
  | fetch {h : Nat} (hat : (Pc.dequeueLoad h : Pc T).At C u m) :
      Move C u m { m with fetched := m.fetched ++ [h] }
  | vacate {h : Nat} {item : T} (hat : (Pc.dequeueMove h item).At C u m) :
      Move C u m (m.setValue (C.idx h) (C.moved item))
  | release {h : Nat} {item : T} (hat : (Pc.dequeueRelease h item).At C u m) :
      Move C u m { m.setTurn (C.idx h) (C.turn h * 2 + 2) with
        returned := m.returned ++ [(u, h, item)] }


variable {u : Nat} {item : T}

theorem Move.draw_inv (hi : Inv C m) :
    Inv C { m with tail := m.tail + 1, drawn := m.drawn ++ [(u, item)] } :=
  { hi with
    drawn_length := by simp [hi.drawn_length]
    tail_early := fun t ht => hi.tail_early t (Nat.le_of_succ_le ht)
    stored_lt := fun t ht => Nat.lt_succ_of_lt (hi.stored_lt t ht)
    kept := by
      intro t ht hf
      obtain ⟨hturn, w, hw⟩ := hi.kept t ht hf
      exact ⟨hturn, w, Outline.getElem?_snoc hw⟩
    returned_item := by
      intro w h v hx
      obtain ⟨htook, w', hw⟩ := hi.returned_item w h v hx
      exact ⟨htook, w', Outline.getElem?_snoc hw⟩ }

theorem Move.take_inv (hi : Inv C m) :
    Inv C { m with head := m.head + 1, taken := m.taken ++ [u] } :=
  { hi with
    taken_length := by simp [hi.taken_length]
    head_early := fun h hh => hi.head_early h (Nat.le_of_succ_le hh)
    fetched_lt := fun h hh => Nat.lt_succ_of_lt (hi.fetched_lt h hh)
    served_lt := fun h hh => Nat.lt_succ_of_lt (hi.served_lt h hh)
    returned_item := by
      intro w h v hx
      obtain ⟨htook, hw⟩ := hi.returned_item w h v hx
      exact ⟨Outline.getElem?_snoc htook, hw⟩ }

theorem Move.store_inv (hi : Inv C m) (hat : (Pc.enqueueStore item t).At C u m) :
    Inv C { m.setValue (C.idx t) item with stored := m.stored ++ [t] } := by
  obtain ⟨⟨hdrew, hearly⟩, hturn, hnot⟩ := hat
  have hlt : t < m.tail := hi.drawn_length ▸ (List.getElem?_eq_some_iff.mp hdrew).1
  exact
    { hi with
      tail_early := fun i hi' => by simpa using hi.tail_early i hi'
      head_early := fun i hi' => by simpa using hi.head_early i hi'
      stored_lt := by
        intro i hmem
        rcases List.mem_append.mp hmem with hmem | hmem
        · exact hi.stored_lt i hmem
        · rw [List.mem_singleton.mp hmem]
          exact hlt
      kept := by
        intro i hmem hf
        simp only [slotTurn_setValue, slotValue_setValue]
        rcases List.mem_append.mp hmem with hmem | hmem
        · obtain ⟨hi1, w, hw⟩ := hi.kept i hmem hf
          -- another stored item of this slot would have the same turn
          have hne : C.idx i ≠ C.idx t := by
            intro hidx
            rw [slotTurn_congr hidx] at hi1
            exact hnot (C.ticket_ext hidx (by omega) ▸ hmem)
          exact ⟨hi1, w, by rw [if_neg hne]; exact hw⟩
        · rw [List.mem_singleton.mp hmem, if_pos rfl]
          exact ⟨.inl hturn, u, hdrew⟩
      invited := fun i hi' =>
        List.mem_append_left _ (hi.invited i (by simpa using hi'))
      ready := fun i hmem hf => by simpa using hi.ready i hmem hf }

theorem Move.publish_inv (hi : Inv C m) (hat : (Pc.enqueuePublish item t).At C u m) :
    Inv C { m.setTurn (C.idx t) (C.turn t * 2 + 1) with published := m.published ++ [t] } := by
  obtain ⟨⟨hdrew, _⟩, hturn, hmem⟩ := hat
  have hlt : t < m.tail := hi.drawn_length ▸ (List.getElem?_eq_some_iff.mp hdrew).1
  exact
    { hi with
      tail_early := by
        intro i hi'
        simp only [slotTurn_setTurn]
        split
        · next hidx =>
          have := C.turn_lt hidx.symm (Nat.lt_of_lt_of_le hlt hi')
          omega
        · exact hi.tail_early i hi'
      head_early := by
        intro i hi'
        simp only [slotTurn_setTurn]
        split
        · next hidx =>
          have := hi.head_early i hi'
          rw [slotTurn_congr hidx] at this
          omega
        · exact hi.head_early i hi'
      kept := by
        intro i hi' hf
        obtain ⟨h1, w, hw⟩ := hi.kept i hi' hf
        simp only [slotTurn_setTurn, slotValue_setTurn]
        refine ⟨?_, w, hw⟩
        split
        · next hidx =>
          rw [slotTurn_congr hidx] at h1
          omega
        · exact h1
      invited := by
        intro i hi'
        simp only [slotTurn_setTurn] at hi'
        split at hi'
        · next hidx => exact C.ticket_ext hidx (by omega) ▸ hmem
        · exact hi.invited i hi'
      ready := by
        intro i hi' hf
        simp only [slotTurn_setTurn]
        rcases List.mem_append.mp hi' with hi' | hi'
        · have := hi.ready i hi' hf
          split
          · next hidx =>
            rw [slotTurn_congr hidx] at this
            omega
          · exact this
        · rw [List.mem_singleton.mp hi', if_pos rfl] }

variable {h : Nat}

theorem Move.fetch_inv (hi : Inv C m) (hat : (Pc.dequeueLoad h : Pc T).At C u m) :
    Inv C { m with fetched := m.fetched ++ [h] } := by
  obtain ⟨⟨htook, _, _⟩, _, _⟩ := hat
  have hlt : h < m.head := hi.taken_length ▸ (List.getElem?_eq_some_iff.mp htook).1
  exact
    { hi with
      fetched_lt := by
        intro i hi'
        rcases List.mem_append.mp hi' with hi' | hi'
        · exact hi.fetched_lt i hi'
        · rw [List.mem_singleton.mp hi']
          exact hlt
      kept := fun i hi' hf => hi.kept i hi' fun hx => hf (List.mem_append_left _ hx)
      ready := fun i hi' hf => hi.ready i hi' fun hx => hf (List.mem_append_left _ hx) }

theorem Move.vacate_inv (hi : Inv C m) (hat : (Pc.dequeueMove h item).At C u m) :
    Inv C (m.setValue (C.idx h) (C.moved item)) := by
  obtain ⟨_, hturn, hmem, _⟩ := hat
  exact
    { hi with
      tail_early := fun i hi' => by simpa using hi.tail_early i hi'
      head_early := fun i hi' => by simpa using hi.head_early i hi'
      kept := by
        intro i hi' hf
        obtain ⟨h1, w, hw⟩ := hi.kept i hi' hf
        simp only [slotTurn_setValue, slotValue_setValue]
        -- the item of this slot has been fetched already
        have hne : C.idx i ≠ C.idx h := by
          intro hidx
          rw [slotTurn_congr hidx] at h1
          exact hf (C.ticket_ext hidx (by omega) ▸ hmem)
        exact ⟨h1, w, by rw [if_neg hne]; exact hw⟩
      invited := fun i hi' => hi.invited i (by simpa using hi')
      ready := fun i hi' hf => by simpa using hi.ready i hi' hf }

theorem Move.release_inv (hi : Inv C m) (hat : (Pc.dequeueRelease h item).At C u m) :
    Inv C { m.setTurn (C.idx h) (C.turn h * 2 + 2) with
      returned := m.returned ++ [(u, h, item)] } := by
  obtain ⟨⟨htook, _, hun⟩, hturn, hmem, hitem⟩ := hat
  have hlt : h < m.head := hi.taken_length ▸ (List.getElem?_eq_some_iff.mp htook).1
  have hserved : ∀ i, i ∈ (m.returned ++ [(u, h, item)]).map (fun x => x.2.1) →
      i ∈ m.served ∨ i = h := by
    intro i hi'
    rw [List.map_append] at hi'
    exact (List.mem_append.mp hi').imp id List.mem_singleton.mp
  exact
    { hi with
      tail_early := by
        intro i hi'
        have h1 := hi.tail_early i hi'
        simp only [slotTurn_setTurn]
        split
        · next hidx =>
          rw [slotTurn_congr hidx] at h1
          omega
        · exact h1
      head_early := by
        intro i hi'
        simp only [slotTurn_setTurn]
        split
        · next hidx =>
          have := C.turn_lt hidx.symm (Nat.lt_of_lt_of_le hlt hi')
          omega
        · exact hi.head_early i hi'
      served_lt := by
        intro i hi'
        rcases hserved i hi' with hi' | rfl
        · exact hi.served_lt i hi'
        · exact hlt
      kept := by
        intro i hi' hf
        obtain ⟨h1, w, hw⟩ := hi.kept i hi' hf
        simp only [slotTurn_setTurn, slotValue_setTurn]
        refine ⟨?_, w, hw⟩
        split
        · next hidx =>
          rw [slotTurn_congr hidx] at h1
          exact absurd hmem (C.ticket_ext hidx (by omega) ▸ hf)
        · exact h1
      invited := by
        intro i hi'
        simp only [slotTurn_setTurn] at hi'
        split at hi'
        · omega
        · exact hi.invited i hi'
      ready := by
        intro i hi' hf
        have h1 := hi.ready i hi' hf
        simp only [slotTurn_setTurn]
        split
        · next hidx =>
          rw [slotTurn_congr hidx] at h1
          exact absurd hmem (C.ticket_ext hidx (by omega) ▸ hf)
        · exact h1
      returned_item := by
        intro w i v hx
        rcases List.mem_append.mp hx with hx | hx
        · exact hi.returned_item w i v hx
        · obtain ⟨rfl, rfl, rfl⟩ : w = u ∧ i = h ∧ v = item := by simpa using hx
          exact ⟨htook, hitem⟩
      served_once := by
        show (List.map _ _).Nodup
        rw [List.map_append]
        exact List.Nodup.append hi.served_once (List.nodup_singleton _)
          (List.disjoint_singleton.mpr hun) }

theorem Move.inv {m' : Mem T} (hi : Inv C m) (h : Move C u m m') : Inv C m' := by
  cases h with
  | quiet => exact hi
  | draw item => exact draw_inv hi
  | take => exact take_inv hi
  | store hat => exact store_inv hi hat
  | publish hat => exact publish_inv hi hat
  | fetch hat => exact fetch_inv hi hat
  | vacate hat => exact vacate_inv hi hat
  | release hat => exact release_inv hi hat

/-! ## What a thread knows survives the others -/

section Others

variable {u w : Nat} {m' : Mem T}

variable {t : Nat}

theorem Move.drawn {x : Nat × T} (h : Move C u m m') (hx : m.drawn[t]? = some x) :
    m'.drawn[t]? = some x := by
  cases h with
  | draw item => exact Outline.getElem?_snoc hx
  | _ => exact hx

variable {h : Nat}

theorem Move.taken {w : Nat} (hm : Move C u m m') (hx : m.taken[h]? = some w) :
    m'.taken[h]? = some w := by
  cases hm with
  | take => exact Outline.getElem?_snoc hx
  | _ => exact hx

theorem Move.stored (h : Move C u m m') (ht : t ∈ m'.stored) :
    t ∈ m.stored ∨ ∃ item, m.drawn[t]? = some (u, item) := by
  cases h with
  | @store item i hat =>
    rcases List.mem_append.mp ht with ht | ht
    · exact .inl ht
    · rw [List.mem_singleton.mp ht]
      exact .inr ⟨item, hat.1.drew⟩
  | _ => exact .inl ht

theorem Move.fetched (hm : Move C u m m') (hh : h ∈ m'.fetched) :
    h ∈ m.fetched ∨ m.taken[h]? = some u := by
  cases hm with
  | fetch hat =>
    rcases List.mem_append.mp hh with hh | hh
    · exact .inl hh
    · rw [List.mem_singleton.mp hh]
      exact .inr hat.1.took
  | _ => exact .inl hh

theorem Move.served (hm : Move C u m m') (hh : h ∈ m'.served) :
    h ∈ m.served ∨ m.taken[h]? = some u := by
  cases hm with
  | @release i item hat =>
    rw [Mem.served, List.map_append] at hh
    rcases List.mem_append.mp hh with hh | hh
    · exact .inl hh
    · rw [List.mem_singleton.mp hh]
      exact .inr hat.1.took
  | _ => exact .inl hh

theorem Move.stored_mem (h : Move C u m m') (ht : t ∈ m.stored) : t ∈ m'.stored := by
  cases h with
  | store hat => exact List.mem_append_left _ ht
  | _ => exact ht

theorem Move.fetched_mem (hm : Move C u m m') (hh : h ∈ m.fetched) : h ∈ m'.fetched := by
  cases hm with
  | fetch hat => exact List.mem_append_left _ hh
  | _ => exact hh

theorem Move.served_mem (hm : Move C u m m') (hh : h ∈ m.served) : h ∈ m'.served := by
  cases hm with
  | release hat =>
    rw [Mem.served, List.map_append]
    exact List.mem_append_left _ hh
  | _ => exact hh

theorem Move.turn (h : Move C u m m') (i : Nat) : slotTurn C m'.slots i = slotTurn C m.slots i ∨
      slotTurn C m'.slots i = slotTurn C m.slots i + 1 ∧ ∃ t, C.idx i = C.idx t ∧
        ((∃ item, m.drawn[t]? = some (u, item)) ∧ slotTurn C m.slots i = C.turn t * 2 ∨
          m.taken[t]? = some u ∧ slotTurn C m.slots i = C.turn t * 2 + 1) := by
  cases h with
  | @publish item t hat =>
    simp only [slotTurn_setTurn]
    split
    · next hidx =>
      rw [slotTurn_congr hidx, hat.2.1]
      exact .inr ⟨rfl, t, hidx, .inl ⟨⟨item, hat.1.drew⟩, rfl⟩⟩
    · exact .inl rfl
  | @release t item hat =>
    simp only [slotTurn_setTurn]
    split
    · next hidx =>
      rw [slotTurn_congr hidx, hat.2.1]
      exact .inr ⟨rfl, t, hidx, .inr ⟨hat.1.took, rfl⟩⟩
    · exact .inl rfl
  | store hat | vacate hat => exact .inl (by simp)
  | _ => exact .inl rfl

theorem Enq.move {item : T} (hw : w ≠ u) (he : Enq C m w item t) (h : Move C u m m') :
    Enq C m' w item t := by
  refine ⟨h.drawn he.drew, ?_⟩
  have hearly := he.early
  rcases h.turn t with heq | ⟨heq, t', hidx, ⟨⟨item', hdrew⟩, hturn⟩ | ⟨_, hturn⟩⟩
  · omega
  · -- the others' tickets of this slot are of other rounds
    have hne : C.turn t ≠ C.turn t' := by
      intro hsame
      have := he.drew.symm.trans (C.ticket_ext hidx hsame ▸ hdrew)
      simp only [Option.some.injEq, Prod.mk.injEq] at this
      exact hw this.1
    omega
  · omega

theorem Deq.move (hw : w ≠ u) (hd : Deq C m w h) (hm : Move C u m m') : Deq C m' w h := by
  have hmine : ∀ h', m.taken[h']? = some u → h' ≠ h := by
    intro h' htook he
    exact hw (Option.some.inj (hd.took.symm.trans (he ▸ htook)))
  refine ⟨hm.taken hd.took, ?_, fun hs => (hm.served hs).elim hd.unserved fun ht => hmine h ht rfl⟩
  have hearly := hd.early
  rcases hm.turn h with heq | ⟨heq, t', hidx, ⟨_, hturn⟩ | ⟨htook, hturn⟩⟩
  · omega
  · omega
  · have hne : C.turn h ≠ C.turn t' := fun hsame => hmine t' htook (C.ticket_ext hidx hsame).symm
    omega

theorem Move.turn_le (h : Move C u m m') (i : Nat) :
    slotTurn C m.slots i ≤ slotTurn C m'.slots i := by
  rcases h.turn i with heq | ⟨heq, _⟩ <;> omega

theorem Enq.not_stored {item : T} (hw : w ≠ u) (he : Enq C m w item t) (h : Move C u m m')
    (ht : t ∉ m.stored) : t ∉ m'.stored := by
  intro hs
  rcases h.stored hs with hs | ⟨item', hdrew⟩
  · exact ht hs
  · have := he.drew.symm.trans hdrew
    simp only [Option.some.injEq, Prod.mk.injEq] at this
    exact hw this.1

theorem Deq.not_fetched (hw : w ≠ u) (hd : Deq C m w h) (hm : Move C u m m') (hh : h ∉ m.fetched) :
    h ∉ m'.fetched := by
  intro hs
  rcases hm.fetched hs with hs | htook
  · exact hh hs
  · exact hw (Option.some.inj (hd.took.symm.trans htook))

/-- The turn that let an operation pass stays until the operation moves it:
it never goes down, and the ticket is still an early one. -/
theorem Enq.turn_eq {item : T} (hw : w ≠ u) (he : Enq C m w item t) (h : Move C u m m')
    (ht : slotTurn C m.slots t = C.turn t * 2) : slotTurn C m'.slots t = C.turn t * 2 :=
  le_antisymm (he.move hw h).early (ht ▸ h.turn_le t)

theorem Deq.turn_eq (hw : w ≠ u) (hd : Deq C m w h) (hm : Move C u m m')
    (hh : slotTurn C m.slots h = C.turn h * 2 + 1) : slotTurn C m'.slots h = C.turn h * 2 + 1 :=
  le_antisymm (hd.move hw hm).early (hh ▸ hm.turn_le h)

theorem Pc.At.move {pc : Pc T} (hw : w ≠ u) (h : pc.At C w m) (hm : Move C u m m') :
    pc.At C w m' := by
  cases pc with
  | enqueueWait item t => exact ⟨h.1.move hw hm, h.1.not_stored hw hm h.2⟩
  | enqueueStore item t =>
    exact ⟨h.1.move hw hm, h.1.turn_eq hw hm h.2.1, h.1.not_stored hw hm h.2.2⟩
  | enqueueClwb item t | enqueuePublish item t =>
    exact ⟨h.1.move hw hm, h.1.turn_eq hw hm h.2.1, hm.stored_mem h.2.2⟩
  | dequeueWait i => exact ⟨h.1.move hw hm, h.1.not_fetched hw hm h.2⟩
  | dequeueClflush i | dequeueLoad i =>
    exact ⟨h.1.move hw hm, h.1.turn_eq hw hm h.2.1, h.1.not_fetched hw hm h.2.2⟩
  | dequeueMove i item | dequeueRelease i item =>
    obtain ⟨hd, hturn, hf, x, hx⟩ := h
    exact ⟨hd.move hw hm, hd.turn_eq hw hm hturn, hm.fetched_mem hf, x, hm.drawn hx⟩
  | tryCas i => exact le_trans h (hm.turn_le i)
  | _ => trivial

theorem Knows.move {pc : Pc T} (hw : w ≠ u) (h : Knows C w pc m) (hm : Move C u m m') :
    Knows C w pc m' := by
  refine ⟨h.1.move hw hm, fun i hi hs => ?_⟩
  refine h.2 i ?_ fun hx => hs (hm.served_mem hx)
  cases hm with
  | take => exact (getElem?_append_one hi).resolve_right fun hx => hw hx.2.symm
  | _ => exact hi

end Others

/-! ## Every access is one of these moves -/

theorem Inv.took (hi : Inv C m) (hturn : slotTurn C m.slots m.head ≤ C.turn m.head * 2 + 1) :
    Deq C { m with head := m.head + 1, taken := m.taken ++ [u] } u m.head ∧
      m.head ∉ m.fetched := by
  refine ⟨⟨?_, hturn, fun hs => (hi.served_lt _ hs).false⟩, fun hs => (hi.fetched_lt _ hs).false⟩
  rw [← hi.taken_length]
  exact List.getElem?_concat_length

theorem Inv.owns_took (hi : Inv C m) (hh : h = m.head)
    (hown : ∀ i, m.taken[i]? = some u → i ∉ m.served → none = some i) :
    ∀ i, (m.taken ++ [u])[i]? = some u → i ∉ m.served → some h = some i := by
  intro i ht hs
  rcases getElem?_append_one ht with ht | ⟨ht, _⟩
  · exact nomatch hown i ht hs
  · rw [hh, ht, hi.taken_length]

theorem fetch_knows (hat : (Pc.dequeueLoad h : Pc T).At C u m)
    (hown : ∀ i, m.taken[i]? = some u → i ∉ m.served → some h = some i) :
    Knows C u (Pc.fetch C h) m := by
  rw [Pc.fetch]
  split
  · exact ⟨hat, hown⟩
  · exact ⟨hat, hown⟩

variable {pc : Pc T}

theorem run_move {pc' : Pc T} {m' : Mem T} (hi : Inv C m) (hk : Knows C u pc m)
    (hr : run C u pc m = some (pc', m')) : Move C u m m' ∧ Knows C u pc' m' := by
  obtain ⟨hat, hown⟩ := hk
  cases pc with
  | idle => cases hr
  | enqueue item =>
    cases hr
    refine ⟨.draw item, ⟨⟨?_, hi.tail_early _ le_rfl⟩, fun hs => (hi.stored_lt _ hs).false⟩, hown⟩
    rw [← hi.drawn_length]
    exact List.getElem?_concat_length
  | enqueueWait item t =>
    simp only [run] at hr
    split at hr
    · next hturn =>
      cases hr
      exact ⟨.quiet, ⟨hat.1, hturn.symm, hat.2⟩, hown⟩
    · cases hr
      exact ⟨.quiet, hat, hown⟩
  | enqueueStore item t =>
    cases hr
    have hown' : ∀ h, m.taken[h]? = some u → h ∉ m.served → False :=
      fun h ht hs => nomatch hown h ht hs
    refine ⟨.store hat, ?_, fun h ht hs => (hown' h ht hs).elim⟩
    have hstored : (Pc.enqueuePublish item t).At C u
        { m.setValue (C.idx t) item with stored := m.stored ++ [t] } :=
      ⟨⟨hat.1.drew, by simpa using hat.1.early⟩, by simpa using hat.2.1, by simp⟩
    split
    · exact hstored
    · exact hstored
  | enqueueClwb item t | dequeueClflush h =>
    cases hr
    exact ⟨.quiet, hat, hown⟩
  | enqueuePublish item t =>
    cases hr
    exact ⟨.publish hat, trivial, hown⟩
  | dequeue =>
    cases hr
    obtain ⟨hd, hf⟩ := hi.took (hi.head_early _ le_rfl)
    exact ⟨.take, ⟨hd, hf⟩, hi.owns_took rfl hown⟩
  | dequeueWait h =>
    simp only [run] at hr
    split at hr
    · next hturn =>
      cases hr
      exact ⟨.quiet, fetch_knows ⟨hat.1, hturn.symm, hat.2⟩ hown⟩
    · cases hr
      exact ⟨.quiet, hat, hown⟩
  | dequeueLoad h =>
    cases hr
    obtain ⟨hd, hturn, hf⟩ := hat
    obtain ⟨_, hitem⟩ := hi.kept h (hi.invited h hturn) hf
    exact ⟨.fetch ⟨hd, hturn, hf⟩, ⟨⟨hd.took, hd.early, hd.unserved⟩, hturn, by simp, hitem⟩, hown⟩
  | dequeueMove h item =>
    cases hr
    obtain ⟨hd, hturn, hrest⟩ := hat
    refine ⟨.vacate ⟨hd, hturn, hrest⟩, ⟨⟨hd.took, ?_, hd.unserved⟩, ?_, hrest⟩, hown⟩
    · simpa using hd.early
    · simpa using hturn
  | dequeueRelease h item =>
    cases hr
    refine ⟨.release hat, trivial, fun i ht hs => ?_⟩
    rw [Mem.served, List.map_append] at hs
    -- the one ticket it held is served now
    have hh := hown i ht fun hx => hs (List.mem_append_left _ hx)
    injection hh with hh
    exact absurd (List.mem_append_right _ (List.mem_singleton.mpr hh.symm)) hs
  | tryDequeue =>
    cases hr
    exact ⟨.quiet, trivial, hown⟩
  | tryCheck h =>
    simp only [run] at hr
    split at hr
    · next hturn =>
      cases hr
      exact ⟨.quiet, hturn.le, hown⟩
    · cases hr
      exact ⟨.quiet, trivial, hown⟩
  | tryCas h =>
    simp only [run] at hr
    split at hr
    · next hhead =>
      subst hhead
      cases hr
      -- nobody took the ticket since the turn was seen, so the turn is still that
      have hearly := hi.head_early _ le_rfl
      obtain ⟨hd, hf⟩ := hi.took hearly
      exact ⟨.take, fetch_knows ⟨hd, le_antisymm hearly hat, hf⟩ (hi.owns_took rfl hown)⟩
    · cases hr
      exact ⟨.quiet, trivial, hown⟩
  | tryReload h =>
    simp only [run] at hr
    split at hr
    · cases hr
      exact ⟨.quiet, trivial, hown⟩
    · cases hr
      exact ⟨.quiet, trivial, hown⟩

theorem holds_of_reach {s : Sys (Mem T) (Pc T)} (h : (machine C).Reach Machine.free fresh s) :
    Machine.Holds (Inv C) (Knows C) s := by
  refine h.invariant ?_ ?_
  · intro s hs
    obtain ⟨⟨v, hm⟩, hl⟩ := hs
    refine ⟨?_, fun t => ?_⟩
    · rw [hm]
      constructor <;> simp [Mem.new, Mem.served, slotTurn]
    · rw [hm, hl t]
      exact ⟨trivial, by simp [Mem.new]⟩
  · intro s a pc m' hs _ hact
    cases a with
    | call t op =>
      -- a call changes nothing but the caller's place
      have hk := hs.2 t
      simp only [Machine.act, machine, call] at hact
      split at hact
      · next hpc =>
        rw [hpc] at hk
        split at hact <;>
        · cases hact
          exact ⟨hs.1, ⟨trivial, hk.2⟩, fun u _ => hs.2 u⟩
      · cases hact
    | run t =>
      obtain ⟨hmove, hknows⟩ := run_move hs.1 (hs.2 t) hact
      exact ⟨hmove.inv hs.1, hknows, fun u hu => (hs.2 u).move hu hmove⟩

/-- The ticket of the tail that a thread holds. -/
def Pc.tailTicket : Pc T → Option Nat
  | .enqueueWait _ t | .enqueueStore _ t | .enqueueClwb _ t | .enqueuePublish _ t => some t
  | _ => none

/-- What thread `u` drew is published, or its enqueue still runs. -/
def Draws (u : Nat) (pc : Pc T) (m : Mem T) : Prop :=
  ∀ t item, m.drawn[t]? = some (u, item) → t ∉ m.published → pc.tailTicket = some t

theorem Move.draws (hw : w ≠ u) (h : Draws w pc m) (hm : Move C u m m') : Draws w pc m' := by
  intro t item hd hp
  cases hm with
  | draw x =>
    obtain hd | ⟨_, heq⟩ := getElem?_append_one hd
    · exact h t item hd hp
    · exact absurd (congrArg Prod.fst heq).symm hw
  | publish hat => exact h t item hd fun ht => hp (List.mem_append_left _ ht)
  | _ => exact h t item hd hp

theorem run_draws {pc' : Pc T} {m' : Mem T} (hi : Inv C m) (h : Draws u pc m)
    (hr : run C u pc m = some (pc', m')) : Draws u pc' m' := by
  cases pc with
  | idle => cases hr
  | enqueue item =>
    cases hr
    intro t x hd hp
    obtain hd | ⟨ht, _⟩ := getElem?_append_one hd
    · exact nomatch h t x hd hp
    · exact congrArg some (hi.drawn_length.symm.trans ht.symm)
  | enqueuePublish item t =>
    cases hr
    intro i x hd hp
    have hi' : i ∉ m.published := fun hin => hp (List.mem_append_left _ hin)
    obtain rfl := Option.some.inj (h i x hd hi')
    exact absurd (List.mem_append_right _ (List.mem_singleton_self _)) hp
  | enqueueWait item t | dequeueWait t | tryCheck t | tryCas t | tryReload t =>
    simp only [run] at hr
    split at hr <;> cases hr <;> first | exact h | (unfold Pc.fetch; split <;> exact h)
  | enqueueStore item t =>
    cases hr
    split <;> exact h
  | _ =>
    cases hr
    exact h

theorem draws_of_reach {s : Sys (Mem T) (Pc T)} (h : (machine C).Reach Machine.free fresh s) (u : Nat) :
    Draws u (s.loc u) s.mem := by
  suffices hholds : Machine.Holds (fun _ => True) Draws s from hholds.2 u
  refine (h.and fun s hs => holds_of_reach hs).invariant ?_ ?_
  · intro s hs
    obtain ⟨⟨v, hm⟩, _⟩ := hs
    refine ⟨trivial, fun u t item hd => ?_⟩
    rw [hm] at hd
    simp [Mem.new] at hd
  · intro s a pc m' hs hK hact
    obtain ⟨_, hi, hk⟩ := hK
    refine ⟨trivial, ?_⟩
    cases a with
    | call t op =>
      have ht := hs.2 t
      simp only [Machine.act, machine, call] at hact
      split at hact
      · next hpc =>
        rw [hpc] at ht
        split at hact <;>
        · cases hact
          exact ⟨ht, fun w _ => hs.2 w⟩
      · cases hact
    | run t =>
      have hmove := (run_move hi (hk t) hact).1
      exact ⟨run_draws hi (hs.2 t) hact, fun w hw => hmove.draws hw (hs.2 w)⟩

/-! ## The ticket order -/

/-- The ticket an operation works for once it is past its wait loop, and
whether it is a ticket of the tail. -/
def Pc.working : Pc T → Option (Bool × Nat)
  | .enqueueStore _ t | .enqueueClwb _ t | .enqueuePublish _ t => some (true, t)
  | .dequeueClflush h | .dequeueLoad h | .dequeueMove h _ | .dequeueRelease h _ => some (false, h)
  | _ => none

theorem working_of_past (h : pc.past C = some i) :
    ∃ e t, pc.working = some (e, t) ∧ C.idx t = i := by
  cases pc <;> cases h <;> exact ⟨_, _, rfl, rfl⟩

theorem Pc.At.working {enq : Bool} (h : pc.At C u m) (hw : pc.working = some (enq, t)) :
    if enq then (∃ item, m.drawn[t]? = some (u, item)) ∧ slotTurn C m.slots t = C.turn t * 2
    else m.taken[t]? = some u ∧ slotTurn C m.slots t = C.turn t * 2 + 1 := by
  cases pc with
  | enqueueStore item t | enqueueClwb item t | enqueuePublish item t =>
    cases hw
    exact ⟨⟨item, h.1.drew⟩, h.2.1⟩
  | dequeueClflush i | dequeueLoad i | dequeueMove i item | dequeueRelease i item =>
    cases hw
    exact ⟨h.1.took, h.2.1⟩
  | _ => cases hw

/-- Two operations past their wait loops are on different slots. -/
theorem past_unique {w : Nat} {pc' : Pc T} (hu : pc.At C u m) (hw : pc'.At C w m)
    (hi : pc.past C = some i) (hi' : pc'.past C = some i) : u = w := by
  obtain ⟨e, t, ht, rfl⟩ := working_of_past hi
  obtain ⟨e', t', ht', hidx⟩ := working_of_past hi'
  have h1 := hu.working ht
  have h2 := hw.working ht'
  rw [slotTurn_congr hidx] at h2
  cases e <;> cases e' <;> simp only [Bool.false_eq_true, if_true, if_false] at h1 h2
  · have heq := C.ticket_ext hidx (by omega)
    exact Option.some.inj (h1.1.symm.trans (heq ▸ h2.1))
  · omega
  · omega
  · obtain ⟨⟨x, hx⟩, _⟩ := h1
    obtain ⟨⟨y, hy⟩, _⟩ := h2
    have heq := C.ticket_ext hidx (by omega)
    have := hx.symm.trans (heq ▸ hy)
    simp only [Option.some.injEq, Prod.mk.injEq] at this
    exact this.1

/-- Thread `u`, left to run, returns `v` for ticket `t`. -/
def Delivers (C : Config T) (s : Sys (Mem T) (Pc T)) (u t : Nat) (v : T) : Prop :=
  ∃ n s', (machine C).runUnder Machine.free (List.replicate n (.run u)) s = some s' ∧
    (u, t, v) ∈ s'.mem.returned

section Delivery

variable {s : Sys (Mem T) (Pc T)} {u t : Nat} {v : T}

theorem Delivers.later {pc : Pc T} {m' : Mem T} (hr : run C u (s.loc u) s.mem = some (pc, m'))
    (h : Delivers C ⟨m', update s.loc u pc⟩ u t v) : Delivers C s u t v := by
  obtain ⟨n, s', hrun, hmem⟩ := h
  refine ⟨n + 1, s', ?_, hmem⟩
  have hstep : (machine C).step s (.run u) = some ⟨m', update s.loc u pc⟩ := by
    simp only [Machine.step, Machine.act, machine, hr, Option.map_some, Act.thread]
  rw [List.replicate_succ, Machine.runUnder, if_pos (show Machine.free s _ from trivial), hstep]
  exact hrun

theorem delivers_release (hl : s.loc u = .dequeueRelease t v) : Delivers C s u t v := by
  refine .later (by rw [hl]; rfl) ⟨0, _, rfl, ?_⟩
  simp

theorem delivers_move (hl : s.loc u = .dequeueMove t v) : Delivers C s u t v :=
  .later (by rw [hl]; rfl) (delivers_release (update_self ..))

theorem delivers_load (hl : s.loc u = .dequeueLoad t) (hv : slotValue C s.mem.slots t = v) :
    Delivers C s u t v := by
  subst hv
  exact .later (by rw [hl]; rfl) (delivers_move (update_self ..))

theorem delivers_clflush (hl : s.loc u = .dequeueClflush t) (hv : slotValue C s.mem.slots t = v) :
    Delivers C s u t v :=
  .later (by rw [hl]; rfl) (delivers_load (update_self ..) hv)

theorem delivers_wait (hl : s.loc u = .dequeueWait t)
    (ht : slotTurn C s.mem.slots t = C.turn t * 2 + 1) (hv : slotValue C s.mem.slots t = v) :
    Delivers C s u t v := by
  have hr : run C u (s.loc u) s.mem = some (.fetch C t, s.mem) := by
    rw [hl]
    exact if_pos ht.symm
  refine .later hr ?_
  rw [Pc.fetch]
  split
  · exact delivers_clflush (update_self ..) hv
  · exact delivers_load (update_self ..) hv

/-- A published item reaches the dequeue that took its ticket. -/
theorem delivers_published (h : Machine.Holds (Inv C) (Knows C) s) {w : Nat}
    (hp : t ∈ s.mem.published) (ht : s.mem.taken[t]? = some u) (hs : t ∉ s.mem.served)
    (hd : s.mem.drawn[t]? = some (w, v)) : Delivers C s u t v := by
  obtain ⟨hi, hk⟩ := h
  obtain ⟨hat, hown⟩ := hk u
  have hh := hown t ht hs
  have hslot : t ∉ s.mem.fetched → slotTurn C s.mem.slots t = C.turn t * 2 + 1 ∧
      slotValue C s.mem.slots t = v := by
    intro hf
    have hturn := hi.ready t hp hf
    obtain ⟨_, w', hw⟩ := hi.kept t (hi.invited t hturn) hf
    have := hd.symm.trans hw
    simp only [Option.some.injEq, Prod.mk.injEq] at this
    exact ⟨hturn, this.2.symm⟩
  have hitem : ∀ item : T, (∃ w, s.mem.drawn[t]? = some (w, item)) → item = v := by
    rintro item ⟨w', hw⟩
    have := hd.symm.trans hw
    simp only [Option.some.injEq, Prod.mk.injEq] at this
    exact this.2.symm
  cases hpc : s.loc u with
  | dequeueWait i =>
    rw [hpc] at hh hat
    cases hh
    exact delivers_wait hpc (hslot hat.2).1 (hslot hat.2).2
  | dequeueClflush i =>
    rw [hpc] at hh hat
    cases hh
    exact delivers_clflush hpc (hslot hat.2.2).2
  | dequeueLoad i =>
    rw [hpc] at hh hat
    cases hh
    exact delivers_load hpc (hslot hat.2.2).2
  | dequeueMove i item =>
    rw [hpc] at hh hat
    cases hh
    exact hitem item hat.2.2.2 ▸ delivers_move hpc
  | dequeueRelease i item =>
    rw [hpc] at hh hat
    cases hh
    exact hitem item hat.2.2.2 ▸ delivers_release hpc
  | _ =>
    rw [hpc] at hh
    cases hh

end Delivery

/-- In every state a run reaches: a ticket of the tail belongs to one enqueue
and a ticket of the head to one dequeue; what a dequeue returned is the item
drawn with its ticket, and no ticket is served twice; a stored item is in its
slot until it is fetched; a published item reaches the dequeue that took its
ticket; and no two operations are past their wait loops on one slot. -/
theorem transfers_each_item_once (C : Config T) {s : Sys (Mem T) (Pc T)}
    (hs : (machine C).Reach Machine.free fresh s) :
    (s.mem.drawn.length = s.mem.tail ∧ s.mem.taken.length = s.mem.head) ∧
    (∀ u h v, (u, h, v) ∈ s.mem.returned →
      s.mem.taken[h]? = some u ∧ ∃ w, s.mem.drawn[h]? = some (w, v)) ∧
    s.mem.served.Nodup ∧
    (∀ t ∈ s.mem.stored, t ∉ s.mem.fetched →
      ∃ w, s.mem.drawn[t]? = some (w, (s.mem.slots (C.idx t)).value)) ∧
    (∀ t u w v, t ∈ s.mem.published → s.mem.drawn[t]? = some (w, v) →
      s.mem.taken[t]? = some u → t ∉ s.mem.served → Delivers C s u t v) ∧
    ∀ u w i, (s.loc u).past C = some i → (s.loc w).past C = some i → u = w := by
  have h := holds_of_reach hs
  obtain ⟨hi, hk⟩ := h
  refine ⟨⟨hi.drawn_length, hi.taken_length⟩, hi.returned_item, hi.served_once, ?_, ?_, ?_⟩
  · exact fun t ht hf => (hi.kept t ht hf).2
  · exact fun t u w v hp hd ht hsv => delivers_published ⟨hi, hk⟩ hp ht hsv hd
  · exact fun u w i hu hw => past_unique (hk u).1 (hk w).1 hu hw

/-- Two slots of numbers, no cache maintenance. -/
def twoSlots : Config Nat where
  capacity := 2
  pos := by decide
  pow := by decide
  noCc := false
  moved := id

def idleQueue : Sys (Mem Nat) (Pc Nat) := ⟨Mem.new fun _ => 0, fun _ => .idle⟩

/-- Thread 0 enqueues 7, 8 and 9; thread 1 takes the first ticket before there
is an item; thread 2 looks before it takes. -/
def threeItems : List (Act (Op Nat)) :=
  [Act.call 1 Op.dequeue, Act.run 1, Act.run 1] ++
  [Act.call 0 (Op.enqueue 7), Act.run 0, Act.run 0, Act.run 0, Act.run 0] ++
  [Act.call 0 (Op.enqueue 8), Act.run 0, Act.run 0, Act.run 0, Act.run 0] ++
  [Act.call 0 (Op.enqueue 9), Act.run 0, Act.run 0] ++
  [Act.call 2 Op.tryDequeue, Act.run 2, Act.run 2, Act.run 2] ++
  [Act.run 1, Act.run 1, Act.run 1, Act.run 2, Act.run 1, Act.run 0, Act.run 0, Act.run 2]

theorem threeItems_run :
    ((machine twoSlots).runUnder Machine.free threeItems idleQueue).any fun s =>
      s.mem.returned = [(1, 0, 7)] ∧ s.mem.stored = [0, 1, 2] ∧ s.mem.fetched = [0, 1] ∧
        (s.mem.slots 0).value = 9 := by
  decide +kernel

theorem transfers_each_item_once_threeItems :
    ∃ s : Sys (Mem Nat) (Pc Nat), (machine twoSlots).Reach Machine.free fresh s ∧
      s.mem.returned = [(1, 0, 7)] ∧ (∃ w, s.mem.drawn[0]? = some (w, 7)) ∧
      ∃ w, s.mem.drawn[2]? = some (w, 9) := by
  obtain ⟨s, _, hreach, hret, hsto, hfet, hval⟩ :=
    Machine.reach_of_any fresh ⟨⟨_, rfl⟩, fun _ => rfl⟩ threeItems_run
  obtain ⟨_, hitem, _, hkept, _⟩ := transfers_each_item_once twoSlots hreach
  refine ⟨s, hreach, hret, (hitem 1 0 7 (by rw [hret]; decide)).2, ?_⟩
  obtain ⟨w, hw⟩ := hkept 2 (by rw [hsto]; decide) (by rw [hfet]; decide)
  exact ⟨w, hval ▸ hw⟩

/-- Items that are stored and not fetched yet are in different slots: there are never more of
them than slots. -/
theorem stored_le_capacity (C : Config T) {s : Sys (Mem T) (Pc T)}
    (hs : (machine C).Reach Machine.free fresh s) {l : List Nat} (hl : l.Nodup)
    (hin : ∀ t ∈ l, t ∈ s.mem.stored ∧ t ∉ s.mem.fetched) : l.length ≤ C.capacity := by
  have hkept := (holds_of_reach hs).1.kept
  have hslots : (l.map C.idx).Nodup := by
    refine hl.map_on fun t ht u hu hidx => C.ticket_ext hidx ?_
    have h1 := (hkept t (hin t ht).1 (hin t ht).2).1
    have h2 := (hkept u (hin u hu).1 (hin u hu).2).1
    rw [slotTurn_congr hidx] at h1
    omega
  have hlt : l.map C.idx ⊆ List.range C.capacity := by
    intro i hi
    obtain ⟨t, _, rfl⟩ := List.mem_map.mp hi
    exact List.mem_range.mpr (Nat.mod_lt _ C.pos)
  simpa using (hslots.subperm hlt).length_le

theorem stored_le_capacity_threeItems : ∃ s : Sys (Mem Nat) (Pc Nat),
    2 ∈ s.mem.stored ∧ 2 ∉ s.mem.fetched ∧ [2].length ≤ twoSlots.capacity := by
  obtain ⟨s, _, hreach, -, hstored, hfetched, -⟩ :=
    Machine.reach_of_any fresh ⟨⟨_, rfl⟩, fun _ => rfl⟩ threeItems_run
  have h2 : 2 ∈ s.mem.stored ∧ 2 ∉ s.mem.fetched := by simp [hstored, hfetched]
  exact ⟨s, h2.1, h2.2, stored_le_capacity twoSlots hreach (by simp) (by simpa using h2)⟩

end ShmPcc.MpmcQueue
