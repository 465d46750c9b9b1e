import ShmPcc.Ref.ListVariants

/-!
# The list variants as maps

A list class implements the map of the most recent values if a relation between its nodes
and the map survives the inserts, and the finds read the map off. For the lists that push
behind the head the relation is that the first node of a key has its value; for the sorted
ones the keys increase as well. `LockFreeSortedList` does not keep it where a key is
inserted again with another value: it leaves the old one.
-/

namespace ShmPcc.ListVariants

open Function

variable {K V : Type} [LinearOrder K] {key k headKey : K} {val v : V} {nodes : List (K × V)}
  {recent : K → Option V} {calls : List (Call K V)}

/-! ## Implementing the map -/

/-- Inserts are made where `ok` allows them. -/
def Allowed (ok : (K → Option V) → K → V → Prop) : List (Call K V) → (K → Option V) → Prop
  | [], _ => True
  | .insert key val :: calls, recent =>
    ok recent key val ∧ Allowed ok calls (update recent key (some val))
  | .find _ _ :: calls, recent => Allowed ok calls recent

structure Implements (c : Variant K V) (ok : (K → Option V) → K → V → Prop)
    (Rep : List (K × V) → (K → Option V) → Prop) : Prop where
  empty : Rep [] fun _ => none
  insert : ∀ {nodes recent key val}, Rep nodes recent → ok recent key val →
    ∃ nodes', c.insert key val nodes = some nodes' ∧ Rep nodes' (update recent key (some val))
  find : ∀ {nodes recent} key val, Rep nodes recent → found (c.find key val nodes) = recent key

theorem Implements.results {c : Variant K V} {ok : (K → Option V) → K → V → Prop}
    {Rep : List (K × V) → (K → Option V) → Prop} (h : Implements c ok Rep) :
    ∀ {calls : List (Call K V)} {nodes recent}, Rep nodes recent → Allowed ok calls recent →
      ∃ rs, c.results calls nodes = some rs ∧ rs.map found = expected calls recent
  | [], _, _, _, _ => ⟨[], rfl, rfl⟩
  | .insert key val :: calls, nodes, recent, hrep, hok => by
    obtain ⟨nodes', hinsert, hrep'⟩ := h.insert hrep hok.1
    obtain ⟨rs, hrs, hfound⟩ := h.results hrep' hok.2
    refine ⟨rs, ?_, hfound⟩
    rw [Variant.results, hinsert]
    exact hrs
  | .find key val :: calls, nodes, recent, hrep, hok => by
    have hcalls : Allowed ok calls recent := hok
    obtain ⟨rs, hrs, hfound⟩ := h.results hrep hcalls
    refine ⟨c.find key val nodes :: rs, ?_, ?_⟩
    · rw [Variant.results, hrs]
      rfl
    · rw [List.map_cons, h.find key val hrep, hfound]
      rfl

/-! ## The value of a key -/

/-- The value of the first node with the key. -/
def value (k : K) : List (K × V) → Option V
  | [] => none
  | n :: nodes => if n.1 = k then some n.2 else value k nodes

theorem value_eq_none (h : ∀ n ∈ nodes, k < n.1) : value k nodes = none := by
  induction nodes with
  | nil => rfl
  | cons n nodes ih =>
    rw [value, if_neg (ne_of_gt (h n (List.mem_cons_self ..)))]
    exact ih fun n' hn' => h n' (.tail _ hn')

/-- The nodes have the values of the map. -/
def Shows (nodes : List (K × V)) (recent : K → Option V) : Prop := ∀ k, value k nodes = recent k

theorem Shows.of_value {nodes' : List (K × V)} (h : Shows nodes recent)
    (hvalue : ∀ k, value k nodes' = if k = key then some val else value k nodes) :
    Shows nodes' (update recent key (some val)) := by
  intro k
  rw [hvalue, update_apply, h k]

theorem found_findFront (key : K) (val : V) : found (findFront key val nodes) = value key nodes := by
  induction nodes with
  | nil => rfl
  | cons n nodes ih =>
    rw [findFront, value]
    split
    · rfl
    · exact ih

theorem shows_pushFront (h : Shows nodes recent) :
    Shows (pushFront key val nodes) (update recent key (some val)) := by
  refine h.of_value fun k => ?_
  simp only [pushFront, value, eq_comm]

/-- Both lists that push behind the head. -/
theorem implements_pushFront {c : Variant K V} (hinsert : ∀ k v l, c.insert k v l = some (pushFront k v l))
    (hfind : c.find = findFront) : Implements c (fun _ _ _ => True) Shows := by
  refine ⟨fun _ => rfl, fun hrep _ => ⟨_, hinsert .., shows_pushFront hrep⟩, fun key val hrep => ?_⟩
  rw [hfind, found_findFront]
  exact hrep key

/-! ## The sorted lists -/

/-- The keys increase along the nodes. -/
def Ordered (nodes : List (K × V)) : Prop := nodes.Pairwise fun a b => a.1 < b.1

def Sorts (nodes : List (K × V)) (recent : K → Option V) : Prop := Ordered nodes ∧ Shows nodes recent

/-- Both sorted inserts, which differ in what becomes of the value of a key that is there. -/
def insertWith (merge : V → V → V) (key : K) (val : V) : List (K × V) → List (K × V)
  | [] => [(key, val)]
  | n :: nodes =>
    if n.1 = key then (n.1, merge n.2 val) :: nodes
    else if n.1 > key then (key, val) :: n :: nodes
    else n :: insertWith merge key val nodes

theorem bigSorted_insert_eq :
    LockListBigSorted.insert key val nodes = insertWith (fun _ new => new) key val nodes := by
  induction nodes with
  | nil => rfl
  | cons n nodes ih => rw [LockListBigSorted.insert, insertWith, ih]

theorem link_eq : LockFreeSortedList.link key val nodes = insertWith (fun old _ => old) key val nodes := by
  induction nodes with
  | nil => rfl
  | cons n nodes ih =>
    rw [LockFreeSortedList.link, insertWith, ih]
    rcases lt_trichotomy n.1 key with hlt | heq | hgt
    · rw [if_pos hlt, if_neg (ne_of_lt hlt), if_neg (not_lt_of_gt hlt)]
    · rw [if_neg (by rw [heq]; exact lt_irrefl _), if_pos heq, if_pos heq]
    · rw [if_neg (not_lt_of_gt hgt), if_neg (ne_of_gt hgt), if_neg (ne_of_gt hgt), if_pos hgt]

section InsertWith

variable {merge : V → V → V}

theorem mem_insertWith {n : K × V} (h : n ∈ insertWith merge key val nodes) :
    n.1 = key ∨ n ∈ nodes := by
  induction nodes with
  | nil =>
    rw [List.mem_singleton.mp h]
    exact .inl rfl
  | cons a nodes ih =>
    rw [insertWith] at h
    split at h
    · next heq =>
      rcases List.mem_cons.mp h with rfl | h
      · exact .inl heq
      · exact .inr (.tail _ h)
    · split at h
      · rcases List.mem_cons.mp h with rfl | h
        · exact .inl rfl
        · exact .inr h
      · rcases List.mem_cons.mp h with rfl | h
        · exact .inr (.head _)
        · exact (ih h).imp_right (.tail _)

theorem ordered_insertWith (h : Ordered nodes) : Ordered (insertWith merge key val nodes) := by
  induction nodes with
  | nil => exact List.pairwise_singleton ..
  | cons a nodes ih =>
    obtain ⟨ha, hrest⟩ := List.pairwise_cons.mp h
    rw [insertWith]
    split
    · exact List.pairwise_cons.mpr ⟨ha, hrest⟩
    · next hne =>
      split
      · next hgt =>
        refine List.pairwise_cons.mpr ⟨fun b hb => ?_, h⟩
        rcases List.mem_cons.mp hb with rfl | hb
        · exact hgt
        · exact lt_trans hgt (ha b hb)
      · next hle =>
        refine List.pairwise_cons.mpr ⟨fun b hb => ?_, ih hrest⟩
        rcases mem_insertWith hb with heq | hb
        · rw [heq]
          exact lt_of_le_of_ne (not_lt.mp hle) hne
        · exact ha b hb

theorem value_insertWith (h : Ordered nodes) (k : K) : value k (insertWith merge key val nodes) =
    if k = key then some ((value key nodes).elim val (merge · val)) else value k nodes := by
  induction nodes with
  | nil => simp only [insertWith, value, eq_comm, Option.elim_none]
  | cons a nodes ih =>
    obtain ⟨ha, hrest⟩ := List.pairwise_cons.mp h
    rw [insertWith]
    by_cases heq : a.1 = key
    · simp only [value, heq, if_true, Option.elim_some, eq_comm]
      split <;> rfl
    · rw [if_neg heq]
      split
      · next hgt =>
        have hnone : value key (a :: nodes) = none := by
          refine value_eq_none fun n hn => ?_
          rcases List.mem_cons.mp hn with rfl | hn
          · exact hgt
          · exact lt_trans hgt (ha n hn)
        rw [hnone, value, Option.elim_none]
        simp only [eq_comm]
      · rw [value, ih hrest, value, value, if_neg heq]
        split
        · next hk => rw [if_neg fun h => heq (hk.trans h)]
        · rfl

end InsertWith

theorem found_bigSorted_find (h : Ordered nodes) (key : K) (val : V) :
    found (LockListBigSorted.find key val nodes) = value key nodes := by
  induction nodes with
  | nil => rfl
  | cons a nodes ih =>
    obtain ⟨ha, hrest⟩ := List.pairwise_cons.mp h
    rw [LockListBigSorted.find, value]
    split
    · rfl
    · split
      · next hgt =>
        rw [value_eq_none fun n hn => lt_trans hgt (ha n hn)]
        rfl
      · exact ih hrest

theorem implements_bigSorted : Implements (lockListBigSorted : Variant K V) (fun _ _ _ => True) Sorts := by
  refine ⟨⟨List.Pairwise.nil, fun _ => rfl⟩, fun {nodes recent key val} hrep _ => ⟨_, rfl, ?_, ?_⟩,
    fun key val hrep => ?_⟩
  · rw [bigSorted_insert_eq]
    exact ordered_insertWith hrep.1
  · refine hrep.2.of_value fun k => ?_
    rw [bigSorted_insert_eq, value_insertWith hrep.1]
    cases value key nodes <;> rfl
  · exact (found_bigSorted_find hrep.1 key val).trans (hrep.2 key)

theorem found_sorted_find (h : Ordered nodes) (key : K) (val : V) :
    found (LockFreeSortedList.find key val nodes) = value key nodes := by
  induction nodes with
  | nil => rfl
  | cons a nodes ih =>
    obtain ⟨ha, hrest⟩ := List.pairwise_cons.mp h
    rw [LockFreeSortedList.find, value]
    split
    · next hge =>
      by_cases heq : a.1 = key
      · simp [found, heq]
      · have hgt : key < a.1 := lt_of_le_of_ne hge (Ne.symm heq)
        rw [if_neg heq, value_eq_none fun n hn => lt_trans hgt (ha n hn)]
        simp [found, heq]
    · next hlt =>
      rw [if_neg fun heq => hlt (le_of_eq heq.symm)]
      exact ih hrest

/-- An insert that `LockFreeSortedList` makes as the other lists do: above the head, and
not of another value for a key that is there. -/
def Harmless (headKey : K) (recent : K → Option V) (key : K) (val : V) : Prop :=
  headKey < key ∧ ∀ old, recent key = some old → old = val

theorem implements_sorted :
    Implements (lockFreeSortedList headKey : Variant K V) (Harmless headKey) Sorts := by
  refine ⟨⟨List.Pairwise.nil, fun _ => rfl⟩, fun {nodes recent key val} hrep hok => ?_,
    fun key val hrep => (found_sorted_find hrep.1 key val).trans (hrep.2 key)⟩
  refine ⟨LockFreeSortedList.link key val nodes, if_pos hok.1, ?_, ?_⟩
  · rw [link_eq]
    exact ordered_insertWith hrep.1
  · refine hrep.2.of_value fun k => ?_
    rw [link_eq, value_insertWith hrep.1, hrep.2 key]
    cases hold : recent key with
    | none => rfl
    | some old => rw [hok.2 old hold]; rfl

/-! ## The four lists -/

theorem allowed_true {recent : K → Option V} : Allowed (fun _ _ _ => True) calls recent := by
  induction calls generalizing recent with
  | nil => trivial
  | cons c calls ih =>
    cases c with
    | insert key val => exact ⟨trivial, ih⟩
    | find key val => exact ih

/-- What has been inserted is what consistent calls insert again. -/
theorem allowed_harmless (habove : ∀ c ∈ calls, c.above headKey) (hcons : Consistent calls)
    (hrecent : ∀ k old v, recent k = some old → .insert k v ∈ calls → old = v) :
    Allowed (Harmless headKey) calls recent := by
  induction calls generalizing recent with
  | nil => trivial
  | cons c calls ih =>
    have hrest : ∀ c ∈ calls, c.above headKey := fun c hc => habove c (.tail _ hc)
    have hcons' : Consistent calls := fun k v v' h h' =>
      hcons k v v' (.tail _ h) (.tail _ h')
    cases c with
    | insert key val =>
      refine ⟨⟨habove _ (.head _), ?_⟩, ih hrest hcons' ?_⟩
      · exact fun old hold => hrecent key old val hold (.head _)
      · intro k old v hold hmem
        by_cases hk : k = key
        · subst hk
          rw [update_self] at hold
          cases hold
          exact hcons k _ v (.head _) (.tail _ hmem)
        · rw [update_of_ne hk] at hold
          exact hrecent k old v hold (.tail _ hmem)
    | find key val =>
      exact ih hrest hcons' fun k old v hold hmem => hrecent k old v hold (.tail _ hmem)

/-- Where no key is inserted with two values, the finds on all four lists return the value
inserted most recently. -/
theorem variants_agree (headKey : K) (habove : ∀ c ∈ calls, c.above headKey) (hcons : Consistent calls)
    {c : Variant K V} (hc : c ∈ [lockFreeList, lockFreeSortedList headKey, lockListBigSorted,
      lockListBigUnsorted]) :
    ∃ rs, c.results calls [] = some rs ∧ rs.map found = expected calls fun _ => none := by
  simp only [List.mem_cons, List.not_mem_nil, or_false] at hc
  rcases hc with rfl | rfl | rfl | rfl
  · have himpl : Implements (lockFreeList : Variant K V) _ Shows :=
      implements_pushFront (fun _ _ _ => rfl) rfl
    exact himpl.results himpl.empty allowed_true
  · have himpl : Implements (lockFreeSortedList headKey : Variant K V) _ Sorts := implements_sorted
    exact himpl.results himpl.empty (allowed_harmless habove hcons nofun)
  · exact implements_bigSorted.results implements_bigSorted.empty allowed_true
  · have himpl : Implements (lockListBigUnsorted : Variant K V) _ Shows :=
      implements_pushFront (fun _ _ _ => rfl) rfl
    exact himpl.results himpl.empty allowed_true

/-- Two keys, one of them inserted twice with its value. -/
def twoKeys : List (Call Nat Nat) := [.insert 5 1, .find 3 0, .insert 3 2, .insert 5 1, .find 5 0, .find 3 0]

theorem variants_agree_twoKeys : ∃ rs, (lockFreeSortedList 0).results twoKeys [] = some rs ∧
    rs.map found = [none, some 1, some 2] := by
  have hcons : Consistent twoKeys := by
    intro k v v' h h'
    simp only [twoKeys, List.mem_cons, Call.insert.injEq, reduceCtorEq, List.not_mem_nil, or_false, false_or]
      at h h'
    omega
  exact variants_agree 0 (by decide) hcons (by simp)

/-- A key is inserted again with another value: `LockFreeSortedList` returns the old one. -/
theorem variants_differ :
    (lockFreeSortedList 0).results [.insert 5 1, .insert 5 2, .find 5 0] [] = some [(true, 1)] ∧
    ∀ c ∈ [lockFreeList, lockListBigSorted, lockListBigUnsorted],
      c.results [.insert 5 1, .insert 5 2, .find 5 0] [] = some [(true, 2)] := by
  refine ⟨by decide, fun c hc => ?_⟩
  simp only [List.mem_cons, List.not_mem_nil, or_false] at hc
  rcases hc with rfl | rfl | rfl <;> decide

end ShmPcc.ListVariants
