import ShmPcc.Ref.HashRing

/-!
# Keys that move when nodes come and go

The point that `GetNode` takes for a hash is the first one when the ring is walked upwards
from the hash and around. Among fewer points it stays the first one as long as it is there,
and a point that is first among more points was so among fewer. The rest is what the loops
of `AddNode` and `RemoveNode` make of the points: those of the node are added, or gone.
-/

namespace ShmPcc.HashRing

open Function

variable {l : List (Nat × Nat)} {r r' : HashRing} {h key n p : Nat} {hash random64 : Nat → Nat}
  {x y : Nat × Nat} {ps : List Nat}

/-! ## The first point -/

/-- From `h` upwards and around, `x` comes before `y` or at the same point. -/
def Before (h : Nat) (x y : Nat × Nat) : Prop :=
  if h ≤ y.1 then h ≤ x.1 ∧ x.1 ≤ y.1 else h ≤ x.1 ∨ x.1 ≤ y.1

def First (h : Nat) (l : List (Nat × Nat)) (x : Nat × Nat) : Prop := x ∈ l ∧ ∀ y ∈ l, Before h x y

/-- The points are in order, and no two of them are the same. -/
def Ordered (l : List (Nat × Nat)) : Prop := l.Pairwise fun x y => x.1 < y.1

theorem Ordered.eq (hl : Ordered l) (hx : x ∈ l) (hy : y ∈ l) (heq : x.1 = y.1) : x = y :=
  List.inj_on_of_nodup_map (List.pairwise_map.mpr (hl.imp fun hlt => hlt.ne)) hx hy heq

theorem First.unique (hl : Ordered l) (hx : First h l x) (hy : First h l y) : x = y := by
  refine hl.eq hx.1 hy.1 ?_
  have hxy := hx.2 y hy.1
  have hyx := hy.2 x hx.1
  unfold Before at hxy hyx
  split at hxy <;> split at hyx <;> omega

theorem First.subset {l' : List (Nat × Nat)} (hx : First h l x) (hsub : l' ⊆ l) (hmem : x ∈ l') :
    First h l' x :=
  ⟨hmem, fun y hy => hx.2 y (hsub hy)⟩

theorem first_of_find (hl : Ordered l) (hx : l.find? (fun x => h ≤ x.1) = some x) : First h l x := by
  refine ⟨List.mem_of_find?_eq_some hx, fun y hy => ?_⟩
  obtain ⟨hle, before, after, rfl, hbefore⟩ := List.find?_eq_some_iff_append.mp hx
  have hge : h ≤ x.1 := of_decide_eq_true hle
  unfold Before
  split
  · next hy' =>
    refine ⟨hge, ?_⟩
    rw [List.mem_append, List.mem_cons] at hy
    rcases hy with hy | rfl | hy
    · exact absurd hy' (by simpa using hbefore y hy)
    · exact Nat.le_refl _
    · exact ((List.pairwise_cons.mp (List.pairwise_append.mp hl).2.1).1 y hy).le
  · exact .inl hge

theorem first_of_head {rest : List (Nat × Nat)} (hl : Ordered (x :: rest))
    (hnone : (x :: rest).find? (fun x => h ≤ x.1) = none) : First h (x :: rest) x := by
  refine ⟨List.mem_cons_self, fun y hy => ?_⟩
  unfold Before
  split
  · next hy' => exact absurd hy' (by simpa using List.find?_eq_none.mp hnone y hy)
  · refine .inr ?_
    rcases List.mem_cons.mp hy with rfl | hy
    · exact Nat.le_refl _
    · exact ((List.pairwise_cons.mp hl).1 y hy).le

theorem getNode_iff (hl : Ordered r.ring) :
    r.getNode hash key = some n ↔ ∃ p, First (hash key) r.ring (p, n) := by
  have hfirst : ∀ {x}, First (hash key) r.ring x →
      (some x.2 = some n ↔ ∃ p, First (hash key) r.ring (p, n)) := by
    intro x hx
    constructor
    · intro heq
      cases heq
      exact ⟨x.1, hx⟩
    · intro hp
      obtain ⟨p, hp⟩ := hp
      rw [hx.unique hl hp]
  rw [getNode]
  split
  · next hnone =>
    cases hring : r.ring with
    | nil => simp [First]
    | cons x rest =>
      rw [hring] at hl hnone hfirst
      exact hfirst (first_of_head hl hnone)
  · next x hx => exact hfirst (first_of_find hl hx)

/-! ## Points that are added and removed -/

/-- The map and the vectors agree on the points of the nodes. -/
structure Valid (r : HashRing) : Prop where
  ordered : Ordered r.ring
  points : ∀ p n, (p, n) ∈ r.ring ↔ ∃ ps, r.virtualNodes n = some ps ∧ p ∈ ps

theorem mem_setPoint : x ∈ setPoint p n l ↔ x = (p, n) ∨ x ∈ l ∧ x.1 ≠ p := by
  simp only [setPoint, List.mem_append, List.mem_cons, List.mem_filter, decide_eq_true_iff,
    Nat.ne_iff_lt_or_gt]
  tauto

theorem Ordered.setPoint (hl : Ordered l) : Ordered (setPoint p n l) := by
  refine List.pairwise_append.mpr ⟨List.Pairwise.filter _ hl, List.pairwise_cons.mpr
    ⟨fun y hy => ?_, List.Pairwise.filter _ hl⟩, fun y hy z hz => ?_⟩
  · simpa using (List.mem_filter.mp hy).2
  · have hlt : y.1 < p := by simpa using (List.mem_filter.mp hy).2
    rcases List.mem_cons.mp hz with rfl | hz
    · exact hlt
    · have hgt : p < z.1 := by simpa using (List.mem_filter.mp hz).2
      omega

/-- `r'` is `r` with the points `ps` for the node `n`. -/
structure Added (r : HashRing) (n : Nat) (ps : List Nat) (r' : HashRing) : Prop where
  ordered : Ordered r'.ring
  mem : ∀ x, x ∈ r'.ring ↔ x.2 = n ∧ x.1 ∈ ps ∨ x ∈ r.ring
  virtualNodes : r'.virtualNodes = update r.virtualNodes n (some ps)

theorem Added.addPoint (ha : Added r n ps r') (hp : ∀ x ∈ r.ring, x.1 ≠ p) :
    Added r n (ps ++ [p]) (r'.addPoint n p) := by
  refine ⟨ha.ordered.setPoint, fun x => ?_, ?_⟩
  · rw [HashRing.addPoint, mem_setPoint, ha.mem]
    by_cases hx : x.1 = p
    · have hnot : x ∉ r.ring := fun h => hp x h hx
      simp [Prod.ext_iff, hx, hnot]
    · simp [Prod.ext_iff, hx]
  · rw [HashRing.addPoint, ha.virtualNodes, update_self, update_idem]
    rfl

/-- A node that is not on the ring, with points that are not. -/
structure New (r : HashRing) (n : Nat) (random64 : Nat → Nat) : Prop where
  node : r.virtualNodes n = none
  points : ∀ i < virtNodeMultiplier, ∀ x ∈ r.ring, x.1 ≠ random64 i

theorem added_addNode (hr : Valid r) (hnew : New r n random64) :
    Added r n ((List.range virtNodeMultiplier).map random64) (r.addNode n random64) := by
  have hloop : ∀ qs ps r', (∀ p ∈ qs, ∀ x ∈ r.ring, x.1 ≠ p) → Added r n ps r' →
      Added r n (ps ++ qs) (qs.foldl (HashRing.addPoint n) r') := by
    intro qs
    induction qs with
    | nil =>
      intro ps r' _ ha
      rwa [List.append_nil]
    | cons p qs ih =>
      intro ps r' hqs ha
      rw [List.append_cons]
      exact ih _ _ (fun q hq => hqs q (.tail p hq)) (ha.addPoint (hqs p (.head qs)))
  refine hloop ((List.range virtNodeMultiplier).map random64) [] _ (fun p hp => ?_)
    ⟨hr.ordered, fun x => by simp, rfl⟩
  obtain ⟨i, hi, rfl⟩ := List.mem_map.mp hp
  exact hnew.points i (List.mem_range.mp hi)

theorem Added.valid (hr : Valid r) (hnew : r.virtualNodes n = none) (ha : Added r n ps r') :
    Valid r' := by
  refine ⟨ha.ordered, fun p n' => ?_⟩
  rw [ha.mem, ha.virtualNodes, hr.points]
  by_cases hn : n' = n
  · subst hn
    simp [hnew]
  · simp [hn]

theorem foldl_filter : ∀ ps : List Nat, ps.foldl (fun ring n => ring.filter fun x => x.1 != n) l =
    l.filter fun x => x.1 ∉ ps := by
  intro ps
  induction ps generalizing l with
  | nil => simp
  | cons p ps ih =>
    rw [List.foldl_cons, ih, List.filter_filter]
    refine List.filter_congr fun x _ => ?_
    by_cases hx : x.1 = p <;> simp [hx]

theorem mem_removeNode (hr : Valid r) : x ∈ (r.removeNode n).ring ↔ x ∈ r.ring ∧ x.2 ≠ n := by
  rw [removeNode, foldl_filter, List.mem_filter]
  refine and_congr_right fun hx => ?_
  rw [decide_eq_true_iff]
  refine not_congr ?_
  constructor
  · intro hp
    have hn : (x.1, n) ∈ r.ring := by
      rw [hr.points]
      cases hps : r.virtualNodes n with
      | none => simp [hps] at hp
      | some ps => exact ⟨ps, rfl, by simpa [hps] using hp⟩
    exact congrArg Prod.snd (hr.ordered.eq hx hn rfl)
  · rintro rfl
    obtain ⟨ps, hps, hp⟩ := (hr.points x.1 x.2).mp hx
    simpa [hps] using hp

theorem Valid.removeNode (hr : Valid r) : Valid (r.removeNode n) := by
  refine ⟨?_, fun p n' => ?_⟩
  · rw [HashRing.removeNode, foldl_filter]
    exact List.Pairwise.filter _ hr.ordered
  · rw [mem_removeNode hr, hr.points, HashRing.removeNode]
    by_cases hn : n' = n
    · simp [hn]
    · simp [hn]

/-! ## Lookups -/

/-- The rings that nodes with points of their own make, coming and going. -/
inductive Built : HashRing → Prop where
  | empty : Built HashRing.empty
  | addNode (r : HashRing) (n : Nat) (random64 : Nat → Nat) (hr : Built r)
    (hnew : New r n random64) : Built (r.addNode n random64)
  | removeNode (r : HashRing) (n : Nat) (hr : Built r) : Built (r.removeNode n)

theorem Built.valid (hr : Built r) : Valid r := by
  induction hr with
  | empty => exact ⟨List.Pairwise.nil, by simp [HashRing.empty]⟩
  | addNode r n random64 hr hnew ih => exact (added_addNode ih hnew).valid ih hnew.node
  | removeNode r n hr ih => exact ih.removeNode

/-- A node that goes takes its own keys with it and no others; a node that comes takes keys
to itself only; and one that comes and goes leaves no trace. -/
theorem getNode_moves_few_keys (hr : Built r) (hash : Nat → Nat) (key n x : Nat) :
    (r.getNode hash key = some x → x ≠ n → (r.removeNode n).getNode hash key = some x) ∧
    ∀ random64, New r n random64 →
      ((r.addNode n random64).getNode hash key = some x → x ≠ n → r.getNode hash key = some x) ∧
      ((r.addNode n random64).removeNode n).getNode hash key = r.getNode hash key := by
  have hv := hr.valid
  refine ⟨fun hx hne => ?_, fun random64 hnew => ⟨fun hx hne => ?_, ?_⟩⟩
  · obtain ⟨p, hp⟩ := (getNode_iff hv.ordered).mp hx
    refine (getNode_iff hv.removeNode.ordered).mpr ⟨p, hp.subset ?_ ?_⟩
    · exact fun y hy => ((mem_removeNode hv).mp hy).1
    · exact (mem_removeNode hv).mpr ⟨hp.1, hne⟩
  · have ha := added_addNode hv hnew
    obtain ⟨p, hp⟩ := (getNode_iff ha.ordered).mp hx
    refine (getNode_iff hv.ordered).mpr ⟨p, hp.subset (fun y hy => (ha.mem y).mpr (.inr hy)) ?_⟩
    exact ((ha.mem _).mp hp.1).resolve_left fun h => hne h.1
  · have ha := added_addNode hv hnew
    have hv' := (ha.valid hv hnew.node)
    have hmem : ∀ y, y ∈ ((r.addNode n random64).removeNode n).ring ↔ y ∈ r.ring := by
      intro y
      rw [mem_removeNode hv', ha.mem]
      constructor
      · rintro ⟨h | h, hne⟩
        · exact absurd h.1 hne
        · exact h
      · intro h
        refine ⟨.inr h, fun heq => ?_⟩
        obtain ⟨ps, hps, -⟩ := (hv.points y.1 y.2).mp h
        rw [heq, hnew.node] at hps
        cases hps
    refine Option.ext fun z => ?_
    rw [getNode_iff hv'.removeNode.ordered, getNode_iff hv.ordered]
    simp only [First, hmem]

theorem getNode_moves_few_keys_twoNodes :
    let r := (empty.addNode 0 (100 * ·)).addNode 1 (100 * · + 10)
    r.getNode id 95 = some 0 ∧ (r.removeNode 1).getNode id 95 = some 0 ∧
    New r 2 (100 * · + 20) ∧
    ((r.addNode 2 (100 * · + 20)).removeNode 2).getNode id 95 = r.getNode id 95 := by
  intro r
  have hr : Built r := by
    refine .addNode _ _ _ (.addNode _ _ _ .empty ?_) ?_
    all_goals exact ⟨by decide +kernel, by decide +kernel⟩
  have hnew : New r 2 (100 * · + 20) := ⟨by decide +kernel, by decide +kernel⟩
  have h0 : r.getNode id 95 = some 0 := by decide +kernel
  exact ⟨h0, (getNode_moves_few_keys hr id 95 1 0).1 h0 (by decide), hnew,
    ((getNode_moves_few_keys hr id 95 2 0).2 _ hnew).2⟩

end ShmPcc.HashRing
