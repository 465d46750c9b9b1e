import ShmPcc.Ref.ClevelExpand

/-!
# What `expand` has done when it returns

A call that finds no level above the first one links one, and then publishes until it sees a
first level of twice the capacity: that is what its `new_capacity` is for. A call that finds
a level above takes the second branch, whose `new_capacity` is the capacity that the first
level has already. It publishes the old first level again, or nothing at all, and returns.
So the bound holds in the runs in which a call that reads a level above the first one finds
it published already.

The published metas only move up (`Later`), and a capacity is never changed.
-/

namespace ShmPcc.ClevelExpand

open ClevelHash (Meta)

variable {s s' : Mem} {m p : Nat} {mt : Meta}

/-! ## The chain of levels -/

/-- What all steps do to the chain. -/
structure Later (s s' : Mem) : Prop where
  ptr : s.metaPtr ≤ s'.metaPtr
  metas : ∀ i ≤ s.metaPtr, s'.metas i = s.metas i
  levels : s.levels <+: s'.levels
  first : s.cur.firstLevel ≤ s'.cur.firstLevel

structure Chain (s : Mem) : Prop where
  doubles : ∀ i, i + 1 < s.levels.length → s.capacity (i + 1) = s.capacity i * 2
  linked : ∀ i ≤ s.metaPtr, (s.metas i).firstLevel < s.levels.length
  grows : ∀ i ≤ s.metaPtr, (s.metas i).firstLevel ≤ s.cur.firstLevel

theorem Later.refl (s : Mem) : Later s s := ⟨le_rfl, fun _ _ => rfl, List.prefix_refl _, le_rfl⟩

theorem Later.capacity (h : Later s s') {i : Nat} (hi : i < s.levels.length) :
    s'.capacity i = s.capacity i := by
  obtain ⟨ls, hls⟩ := h.levels
  simp only [Mem.capacity, ← hls, List.getD_eq_getElem?_getD, List.getElem?_append_left hi]

theorem publish_cur (s : Mem) (mt : Meta) : (s.publish mt).cur = mt := Function.update_self ..

theorem publish_metas {i : Nat} (hi : i ≤ s.metaPtr) : (s.publish mt).metas i = s.metas i :=
  Function.update_of_ne (by omega) ..

theorem later_publish (hfirst : s.cur.firstLevel ≤ mt.firstLevel) : Later s (s.publish mt) where
  ptr := Nat.le_succ _
  metas _ hi := publish_metas hi
  levels := List.prefix_refl _
  first := by rwa [publish_cur]

theorem Chain.publish (h : Chain s) (hfirst : s.cur.firstLevel ≤ mt.firstLevel)
    (hlt : mt.firstLevel < s.levels.length) : Chain (s.publish mt) := by
  have hcases : ∀ i ≤ s.metaPtr + 1, i ≤ s.metaPtr ∨ i = (s.publish mt).metaPtr := by
    intro i hi
    simp only [Mem.publish]
    omega
  refine ⟨h.doubles, ?_, ?_⟩
  · intro i hi
    obtain hi | rfl := hcases i hi
    · rw [publish_metas hi]
      exact h.linked i hi
    · rw [← Mem.cur, publish_cur]
      exact hlt
  · intro i hi
    rw [publish_cur]
    obtain hi | rfl := hcases i hi
    · rw [publish_metas hi]
      exact (h.grows i hi).trans hfirst
    · rw [← Mem.cur, publish_cur]

theorem later_casUp (cl newCapacity : Nat) : Later s (s.casUp cl newCapacity) := by
  unfold Mem.casUp
  split
  · exact ⟨le_rfl, fun _ _ => rfl, List.prefix_append _ _, le_rfl⟩
  · exact .refl s

theorem Chain.casUp (h : Chain s) (cl : Nat) : Chain (s.casUp cl (s.capacity cl * 2)) := by
  have hlater := later_casUp (s := s) cl (s.capacity cl * 2)
  revert hlater
  unfold Mem.casUp
  split
  · next hlast =>
    intro hlater
    refine ⟨?_, fun i hi => Nat.lt_of_lt_of_le (h.linked i hi) (by simp), h.grows⟩
    intro i hi
    simp only [List.length_append, List.length_singleton] at hi
    by_cases hnew : i + 1 < s.levels.length
    · rw [hlater.capacity hnew, hlater.capacity (by omega)]
      exact h.doubles i hnew
    · obtain rfl : i = cl := by omega
      rw [hlater.capacity (i := i) (by omega)]
      simp [Mem.capacity, hlast]
  · exact fun _ => h

theorem Chain.twice (h : Chain s) {i j : Nat} (hij : i < j) (hj : j < s.levels.length) :
    s.capacity i * 2 ≤ s.capacity j := by
  induction j with
  | zero => omega
  | succ j ih =>
    rw [h.doubles j hj]
    obtain rfl | hlt : i = j ∨ i < j := by omega
    · exact le_rfl
    · have := ih hlt (by omega)
      omega

theorem up_eq_some {level up : Nat} (h : s.up level = some up) : up = level + 1 ∧ up < s.levels.length := by
  unfold Mem.up at h
  split at h
  · cases h
    exact ⟨rfl, by assumption⟩
  · cases h

/-! ## What a thread knows where it stands -/

/-- `new_capacity` of a call on `m` that has linked the next level. -/
structure Asks (s : Mem) (m newCapacity : Nat) : Prop where
  eq : newCapacity = s.capacity (s.metas m).firstLevel * 2
  linked : (s.metas m).firstLevel + 1 < s.levels.length

def Expand.At (m : Nat) : Expand → Mem → Prop
  | .upLoad, _ | .upCas, _ => True
  | .metaLoad, s => (s.metas m).firstLevel < s.cur.firstLevel
  | .newMeta newCapacity mCopy, s =>
    Asks s m newCapacity ∧ mCopy ≤ s.metaPtr ∧ (s.metas m).firstLevel ≤ (s.metas mCopy).firstLevel
  | .metaCas newCapacity mCopy tmpMeta, s =>
    Asks s m newCapacity ∧ mCopy ≤ s.metaPtr ∧ (s.metas mCopy).firstLevel ≤ tmpMeta.firstLevel ∧
      tmpMeta.firstLevel < s.levels.length ∧ newCapacity ≤ s.capacity tmpMeta.firstLevel
  | .reload newCapacity, s => Asks s m newCapacity

def Pc.At : Pc → Mem → Prop
  | .expand _ m place, s => m ≤ s.metaPtr ∧ place.At m s
  | .bucket _ m, s | .levelsLeft _ m _ _, s | .bottomUp _ m _, s => m ≤ s.metaPtr
  | .dropCas _ m tmpMeta, s => m ≤ s.metaPtr ∧ tmpMeta.firstLevel = (s.metas m).firstLevel
  | _, _ => True

/-- What was published when a call on `m` returned. -/
def Room (s : Mem) (x : Nat × Nat) : Prop :=
  x.1 ≤ s.metaPtr ∧ x.2 ≤ s.metaPtr ∧
    s.capacity (s.metas x.1).firstLevel * 2 ≤ s.capacity (s.metas x.2).firstLevel

structure Inv (s : Mem) : Prop where
  chain : Chain s
  room : ∀ x ∈ s.returns, Room s x

theorem Asks.move {n : Nat} (hc : Chain s) (h : Later s s') (hm : m ≤ s.metaPtr) (ha : Asks s m n) :
    Asks s' m n where
  eq := by
    rw [h.metas m hm, h.capacity (hc.linked m hm)]
    exact ha.eq
  linked := by
    rw [h.metas m hm]
    exact Nat.lt_of_lt_of_le ha.linked h.levels.length_le

theorem Expand.At.move {place : Expand} (hc : Chain s) (h : Later s s') (hm : m ≤ s.metaPtr)
    (ha : place.At m s) : place.At m s' := by
  cases place with
  | upLoad | upCas => trivial
  | metaLoad =>
    show (s'.metas m).firstLevel < _
    rw [h.metas m hm]
    exact Nat.lt_of_lt_of_le ha h.first
  | newMeta n c =>
    obtain ⟨hasks, hle, hfirst⟩ := ha
    refine ⟨hasks.move hc h hm, hle.trans h.ptr, ?_⟩
    rwa [h.metas m hm, h.metas c hle]
  | metaCas n c tmp =>
    obtain ⟨hasks, hle, hfirst, hlt, hcap⟩ := ha
    refine ⟨hasks.move hc h hm, hle.trans h.ptr, ?_, Nat.lt_of_lt_of_le hlt h.levels.length_le, ?_⟩
    · rwa [h.metas c hle]
    · rwa [h.capacity hlt]
  | reload n => exact Asks.move hc h hm ha

theorem Pc.At.move {pc : Pc} (hc : Chain s) (h : Later s s') (ha : pc.At s) : pc.At s' := by
  cases pc with
  | expand caller m place => exact ⟨ha.1.trans h.ptr, ha.2.move hc h ha.1⟩
  | bucket _ m | levelsLeft _ m _ _ | bottomUp _ m _ => exact Nat.le_trans ha h.ptr
  | dropCas _ m tmp =>
    refine ⟨ha.1.trans h.ptr, ?_⟩
    rw [h.metas m ha.1]
    exact ha.2
  | _ => trivial

theorem Room.move {x : Nat × Nat} (hc : Chain s) (h : Later s s') (hr : Room s x) : Room s' x := by
  obtain ⟨h1, h2, hcap⟩ := hr
  refine ⟨h1.trans h.ptr, h2.trans h.ptr, ?_⟩
  rwa [h.metas _ h1, h.metas _ h2, h.capacity (hc.linked _ h1), h.capacity (hc.linked _ h2)]

/-! ## Steps -/

/-- The next access of `expand`, and what is published where it is the last. -/
structure Expanded (m : Nat) (s : Mem) (place' : Option Expand) (s' : Mem) : Prop where
  chain : Chain s'
  later : Later s s'
  returns : s'.returns = s.returns
  next : ∀ place, place' = some place → place.At m s'
  room : place' = none → Room s' (m, s'.metaPtr)

theorem Expanded.stay {place : Expand} (hc : Chain s) (h : place.At m s) : Expanded m s (some place) s :=
  ⟨hc, .refl s, rfl, fun _ heq => Option.some.inj heq ▸ h, nofun⟩

theorem Expanded.done (hc : Chain s) (hm : m ≤ s.metaPtr)
    (hcap : s.capacity (s.metas m).firstLevel * 2 ≤ s.capacity s.cur.firstLevel) :
    Expanded m s none s :=
  ⟨hc, .refl s, rfl, nofun, fun _ => ⟨hm, le_rfl, hcap⟩⟩

theorem expand_step {place : Expand} {place' : Option Expand} (hc : Chain s) (hm : m ≤ s.metaPtr)
    (hat : place.At m s) (hpub : place = .upLoad → s.up (s.metas m).firstLevel ≠ none →
      (s.metas m).firstLevel < s.cur.firstLevel)
    (h : expand m place s = some (place', s')) : Expanded m s place' s' := by
  cases place with
  | upLoad =>
    cases h
    by_cases hup : s.up (s.metas m).firstLevel = none
    · rw [if_pos hup]
      exact .stay hc trivial
    · rw [if_neg hup]
      exact .stay hc (hpub rfl hup)
  | upCas =>
    cases h
    have hlater := later_casUp (s := s) (s.metas m).firstLevel (s.capacity (s.metas m).firstLevel * 2)
    refine ⟨hc.casUp _, hlater, ?_, ?_, nofun⟩
    · unfold Mem.casUp
      split <;> rfl
    · intro place heq
      cases heq
      refine ⟨⟨?_, ?_⟩, hm.trans hlater.ptr, le_rfl⟩
      · rw [hlater.metas m hm, hlater.capacity (hc.linked m hm)]
      · have hlinked := hc.linked m hm
        unfold Mem.casUp
        split
        · simp only [List.length_append, List.length_singleton]
          omega
        · omega
  | metaLoad =>
    have hlt : (s.metas m).firstLevel < s.cur.firstLevel := hat
    -- the published meta is not the one of the call
    have hne : s.metaPtr ≠ m := by
      rintro rfl
      exact Nat.lt_irrefl _ hlt
    rw [expand, if_neg hne] at h
    cases h
    exact .done hc hm (hc.twice hlt (hc.linked _ le_rfl))
  | newMeta n c =>
    obtain ⟨hasks, hle, hfirst⟩ := hat
    simp only [expand] at h
    split at h
    · next hcap =>
      cases h
      exact .stay hc ⟨hasks, hle, le_rfl, hc.linked c hle, hcap⟩
    · next hcap =>
      obtain ⟨up, hup, heq⟩ := Option.map_eq_some_iff.mp h
      cases heq
      obtain ⟨rfl, hlt⟩ := up_eq_some hup
      refine .stay hc ⟨hasks, hle, Nat.le_succ _, hlt, ?_⟩
      rw [hasks.eq]
      exact hc.twice (Nat.lt_succ_of_le hfirst) hlt
  | metaCas n c tmp =>
    obtain ⟨hasks, hle, hfirst, hlt, hcap⟩ := hat
    rw [expand] at h
    split at h
    · next hptr =>
      cases h
      subst hptr
      have hlater : Later s (s.publish tmp) := later_publish hfirst
      refine ⟨hc.publish hfirst hlt, hlater, rfl, nofun, fun _ => ⟨hm.trans hlater.ptr, le_rfl, ?_⟩⟩
      rw [← Mem.cur, publish_cur, publish_metas hm]
      exact hasks.eq ▸ hcap
    · cases h
      exact .stay hc hasks
  | reload n =>
    have hasks : Asks s m n := hat
    rw [expand] at h
    split at h
    · next hcap =>
      cases h
      exact .done hc hm (hasks.eq ▸ hcap.1)
    · cases h
      exact .stay hc ⟨hasks, le_rfl, hc.grows m hm⟩

structure Stepped (s : Mem) (pc' : Pc) (s' : Mem) : Prop where
  inv : Inv s'
  place : pc'.At s'
  later : Later s s'

theorem Stepped.stay {pc' : Pc} (hi : Inv s) (h : pc'.At s) : Stepped s pc' s := ⟨hi, h, .refl s⟩

theorem call_step {u : Nat} {op : Op} {pc pc' : Pc} (hi : Inv s) (hat : pc.At s)
    (h : call u op pc s = some (pc', s')) : Stepped s pc' s' := by
  unfold call at h
  split at h
  · split at h
    · next hm =>
      cases h
      exact .stay hi ⟨hm.2, trivial⟩
    · cases h
  · cases h
    exact .stay hi ⟨hat, trivial⟩
  · cases h
    refine .stay hi ?_
    split
    · exact hat
    · trivial
  · cases h

theorem run_step {u : Nat} {pc pc' : Pc} (hi : Inv s) (hat : pc.At s) (hpub : pc.UpPublished s)
    (h : run u pc s = some (pc', s')) : Stepped s pc' s' := by
  cases pc with
  | idle | bucket _ _ => cases h
  | expand caller m place =>
    obtain ⟨hm, hat⟩ := hat
    obtain ⟨⟨place', s''⟩, hx, heq⟩ := Option.map_eq_some_iff.mp h
    have hstep : Expanded m s place' s'' := by
      refine expand_step hi.chain hm hat ?_ hx
      rintro rfl
      exact hpub
    have hroom : ∀ x ∈ s''.returns, Room s'' x := by
      rw [hstep.returns]
      exact fun x hx => (hi.room x hx).move hi.chain hstep.later
    cases place' with
    | some place' =>
      cases heq
      exact ⟨⟨hstep.chain, hroom⟩, ⟨hm.trans hstep.later.ptr, hstep.next _ rfl⟩, hstep.later⟩
    | none =>
      cases heq
      refine ⟨⟨⟨hstep.chain.doubles, hstep.chain.linked, hstep.chain.grows⟩, ?_⟩, ?_, ?_⟩
      · intro x hx
        obtain hx | hx := List.mem_append.mp hx
        · exact hroom x hx
        · rw [List.mem_singleton.mp hx]
          exact hstep.room rfl
      · cases caller <;> trivial
      · exact ⟨hstep.later.ptr, hstep.later.metas, hstep.later.levels, hstep.later.first⟩
  | loop eb | retryRehash eb | dropLoad bl =>
    cases h
    exact .stay hi (by simp [Pc.At])
  | countLevels eb c li n =>
    simp only [run] at h
    split at h
    · cases h
      split <;> exact .stay hi trivial
    · obtain ⟨up, _, heq⟩ := Option.map_eq_some_iff.mp h
      cases heq
      exact .stay hi trivial
  | levelsLeft bl c li n =>
    simp only [run] at h
    split at h
    · cases h
      exact .stay hi hat
    · obtain ⟨up, _, heq⟩ := Option.map_eq_some_iff.mp h
      cases heq
      exact .stay hi hat
  | bottomUp bl c n =>
    obtain ⟨up, _, heq⟩ := Option.map_eq_some_iff.mp h
    cases heq
    exact .stay hi ⟨hat, rfl⟩
  | dropCas bl c tmp =>
    obtain ⟨hle, hfirst⟩ := hat
    simp only [run] at h
    split at h
    · next hptr =>
      cases h
      subst hptr
      have hge : s.cur.firstLevel ≤ tmp.firstLevel := hfirst.ge
      have hlater : Later s (s.publish tmp) := later_publish hge
      refine ⟨⟨hi.chain.publish hge ?_, ?_⟩, trivial, hlater⟩
      · rw [hfirst]
        exact hi.chain.linked _ le_rfl
      · exact fun x hx => (hi.room x hx).move hi.chain hlater
    · cases h
      exact .stay hi trivial

theorem holds_of_reach {hashpower : Nat} {s : Sys Mem Pc}
    (h : machine.Reach upPublished (fresh hashpower) s) : Machine.Holds Inv (fun _ => Pc.At) s := by
  refine h.invariant ?_ ?_
  · intro s hs
    obtain ⟨hptr, hmetas, hlevels, hreturns, h0, hothers⟩ := hs
    have hfirst : ∀ i ≤ s.mem.metaPtr, (s.mem.metas i).firstLevel = 1 := by
      intro i hi
      obtain rfl : i = 0 := by omega
      rw [hmetas]
    refine ⟨⟨⟨?_, ?_, ?_⟩, by simp [hreturns]⟩, ?_⟩
    · intro i hi
      rw [hlevels, List.length_cons, List.length_cons, List.length_nil] at hi
      obtain rfl : i = 0 := by omega
      simp [Mem.capacity, hlevels]
    · intro i hi
      rw [hfirst i hi, hlevels]
      simp
    · intro i hi
      rw [hfirst i hi, Mem.cur, hfirst _ le_rfl]
    · intro u
      by_cases hu : u = 0
      · rw [hu, h0]
        trivial
      · rw [hothers u hu]
        trivial
  · intro s a pc' m' hs hK hact
    have hstep : Stepped s.mem pc' m' := by
      cases a with
      | call u op => exact call_step hs.1 (hs.2 u) hact
      | run u => exact run_step (u := u) hs.1 (hs.2 u) hK hact
    exact ⟨hstep.inv, hstep.place, fun w _ => (hs.2 w).move hs.1.chain hstep.later⟩

/-- A call of `expand` on `m` that has returned found a first level published of at least
twice the capacity, in runs in which no call finds a level linked and not published. -/
theorem expand_makes_room {hashpower : Nat} {s : Sys Mem Pc}
    (hs : machine.Reach upPublished (fresh hashpower) s) :
    ∀ m p, (m, p) ∈ s.mem.returns →
      2 * s.mem.capacity (s.mem.metas m).firstLevel ≤ s.mem.capacity (s.mem.metas p).firstLevel := by
  intro m p hmem
  obtain ⟨_, _, hcap⟩ := (holds_of_reach hs).1.room _ hmem
  rw [Nat.mul_comm]
  exact hcap

def newTable : Sys Mem Pc where
  mem := ⟨0, fun _ => ⟨1, 0, false⟩, [2, 4], []⟩
  loc u := if u = 0 then .loop 0 else .idle

theorem fresh_newTable : fresh 2 newTable := by
  refine ⟨rfl, rfl, rfl, rfl, rfl, fun u hu => ?_⟩
  exact if_neg hu

/-- Threads 1 and 2 expand at the same time: thread 1 links the level and thread 2 publishes
it. Thread 3 comes when all is done. -/
def threeExpands : List (Act Op) :=
  [Act.call 1 (Op.expand 0), Act.call 2 (Op.expand 0), Act.run 1, Act.run 2, Act.run 1, Act.run 2] ++
  [Act.run 2, Act.run 1, Act.run 2, Act.run 1, Act.run 1] ++
  [Act.call 3 (Op.expand 0), Act.run 3, Act.run 3]

theorem threeExpands_run : (machine.runUnder upPublished threeExpands newTable).any fun s =>
      s.mem.returns = [(0, 1), (0, 1), (0, 1)] := by
  decide +kernel

theorem expand_makes_room_threeExpands :
    ∃ s, machine.Reach upPublished (fresh 2) s ∧ s.mem.returns = [(0, 1), (0, 1), (0, 1)] ∧
      2 * s.mem.capacity (s.mem.metas 0).firstLevel ≤ s.mem.capacity (s.mem.metas 1).firstLevel := by
  obtain ⟨s, _, hreach, h⟩ := Machine.reach_of_any (fresh 2) fresh_newTable threeExpands_run
  have hreturns := h
  exact ⟨s, hreach, hreturns, expand_makes_room hreach 0 1 (by simp [hreturns])⟩

/-- Thread 2 comes after thread 1 has linked the level and before it has published it. -/
def linkedOnly : List (Act Op) :=
  [Act.call 1 (Op.expand 0), Act.run 1, Act.run 1, Act.call 2 (Op.expand 0)] ++
  [Act.run 2, Act.run 2, Act.run 2, Act.run 2]

theorem linkedOnly_run : (machine.runUnder Machine.free linkedOnly newTable).any fun s =>
      s.mem.returns = [(0, s.mem.metaPtr)] ∧ s.mem.capacity s.mem.cur.firstLevel = 4 ∧
        s.mem.capacity (s.mem.metas 0).firstLevel = 4 := by
  decide +kernel

/-- Its `expand` has returned, and the first level has the capacity that it had before. -/
theorem expand_returns_without_room :
    ∃ s, machine.Reach Machine.free (fresh 2) s ∧ s.mem.returns = [(0, s.mem.metaPtr)] ∧
      s.mem.capacity s.mem.cur.firstLevel = 4 ∧ s.mem.capacity (s.mem.metas 0).firstLevel = 4 := by
  obtain ⟨s, _, hreach, h⟩ := Machine.reach_of_any (fresh 2) fresh_newTable linkedOnly_run
  exact ⟨s, hreach, h⟩

end ShmPcc.ClevelExpand
