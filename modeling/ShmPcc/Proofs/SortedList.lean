import ShmPcc.Ref.SortedList

/-!
# Concurrent inserts into the sorted list

Nothing is deleted, so no pointer is marked, a node that has been linked stays linked, and
the left node of a search is always followed by its right node: the search never unlinks
anything. What a thread knows of its two neighbours is that both are on the list, and that
its key is between theirs. It need not know that they are still next to each other. That is
what the compare-and-swap finds out, and with it the place is right.
-/

namespace ShmPcc.SortedList

open Function (update update_self update_of_ne)

variable {K V : Type} [LinearOrder K] {m m' : Mem K V} {pc pc' : Pc K V} {t u : Nat} {w : Search K}
  {l : List Nat}

/-! ## The list -/

/-- The node is on the list. -/
def On (m : Mem K V) (n : Nat) : Prop := ∃ l, m.Nodes l ∧ n ∈ l

structure Sorted (m : Mem K V) (l : List Nat) : Prop where
  nodes : m.Nodes l
  head : m.head ∈ l
  sorted : l.Pairwise fun a b => m.key a < m.key b
  settled : ∀ n, n = m.tail ∨ n ∈ l → m.made.Settled n
  unmarked : ∀ n, n = m.tail ∨ n ∈ l → (m.next n).marked = false

def Good (m : Mem K V) : Prop := ∃ l, Sorted m l

variable {n : Nat}

theorem Sorted.on_iff (h : Sorted m l) : On m n ↔ n ∈ l := by
  constructor
  · intro hon
    obtain ⟨l', hl', hn⟩ := hon
    rwa [h.nodes.unique hl']
  · exact fun hn => ⟨l, h.nodes, hn⟩

theorem Good.settled (h : Good m) (hn : n = m.tail ∨ On m n) : m.made.Settled n := by
  obtain ⟨l, hl⟩ := h
  rw [hl.on_iff] at hn
  exact hl.settled n hn

theorem Good.unmarked (h : Good m) (hn : n = m.tail ∨ On m n) : (m.next n).marked = false := by
  obtain ⟨l, hl⟩ := h
  rw [hl.on_iff] at hn
  exact hl.unmarked n hn

theorem Good.next (h : Good m) (hn : On m n) :
    m.next n = ref (m.next n).node ∧ ((m.next n).node = m.tail ∨ On m (m.next n).node) := by
  refine ⟨?_, ?_⟩
  · rw [ref, ← h.unmarked (.inr hn)]
  · obtain ⟨l, hl⟩ := h
    rw [hl.on_iff] at hn ⊢
    exact hl.nodes.next_of_mem hn

theorem Good.head (h : Good m) : On m m.head := by
  obtain ⟨l, hl⟩ := h
  exact hl.on_iff.mpr hl.head

theorem Sorted.nodup (h : Sorted m l) : l.Nodup := by
  refine h.sorted.imp fun hlt heq => ?_
  rw [heq] at hlt
  exact lt_irrefl _ hlt

theorem Sorted.congr (h : Sorted m l) (hhead : m'.head = m.head) (htail : m'.tail = m.tail)
    (hnext : ∀ n, n = m.tail ∨ n ∈ l → m'.next n = m.next n)
    (hkey : ∀ n, n ∈ l → m'.key n = m.key n) (hmade : Fresh.Step t m.made m'.made) : Sorted m' l := by
  refine ⟨?_, hhead ▸ h.head, ?_, ?_, ?_⟩
  · rw [Mem.Nodes, hhead, htail]
    exact h.nodes.congr fun n hn => by rw [hnext n (.inr hn)]
  · refine List.Pairwise.imp_of_mem ?_ h.sorted
    intro a b ha hb hlt
    rw [hkey a ha, hkey b hb]
    exact hlt
  · intro n hn
    rw [htail] at hn
    exact (h.settled n hn).step hmade
  · intro n hn
    rw [htail] at hn
    rw [hnext n hn]
    exact h.unmarked n hn

/-! ## What threads know -/

/-- The node that thread `t` has made for its key. -/
structure Mine (t : Nat) (m : Mem K V) (w : Search K) : Prop where
  held : m.made.HeldBy t w.newElem
  key : m.key w.newElem = w.key
  above : m.key m.head < w.key

/-- The left node of a search is assigned, and is one. -/
def Left (m : Mem K V) (w : Search K) : Prop :=
  ∃ leftNode, w.leftNode = some leftNode ∧ On m leftNode ∧ m.key leftNode < w.key

def At (t : Nat) (pc : Pc K V) (m : Mem K V) : Prop :=
  match pc with
  | .idle => True
  | .newNode key _ => m.key m.head < key
  | .loadFirst w => Mine t m w
  | .loadNext w iter => Mine t m w ∧ Left m w ∧ w.leftNodeNext = ref iter ∧ On m iter
  | .unlink _ _ => False
  | .checkRight w rightNode => Mine t m w ∧ Left m w ∧
      (rightNode = m.tail ∨ On m rightNode ∧ w.key ≤ m.key rightNode)
  | .setNext w rightNode => Mine t m w ∧ Left m w ∧
      (rightNode = m.tail ∨ On m rightNode ∧ w.key < m.key rightNode)
  | .link w rightNode => Mine t m w ∧ Left m w ∧
      (rightNode = m.tail ∨ On m rightNode ∧ w.key < m.key rightNode) ∧
      m.next w.newElem = ref rightNode

/-- What a step of thread `t` may do. -/
structure Moves (t : Nat) (m m' : Mem K V) : Prop where
  head : m'.head = m.head
  tail : m'.tail = m.tail
  made : Fresh.Step t m.made m'.made
  key : ∀ n, n < m.made.count → m'.key n = m.key n
  next : ∀ u n, u ≠ t → m.made.HeldBy u n → m'.next n = m.next n
  on : ∀ n, On m n → On m' n

omit [LinearOrder K] in
theorem Moves.refl : Moves t m m :=
  ⟨rfl, rfl, .stay, fun _ _ => rfl, fun _ _ _ _ => rfl, fun _ h => h⟩

section Others

variable (hm : Moves t m m') (hgood : Good m)
include hm hgood

theorem Moves.key_on {n : Nat} (hn : On m n) : m'.key n = m.key n :=
  hm.key n (hgood.settled (.inr hn)).1

theorem Mine.other (hu : u ≠ t) (h : Mine u m w) : Mine u m' w := by
  refine ⟨h.held.step hu hm.made, (hm.key _ h.held.1).trans h.key, ?_⟩
  rw [hm.head, hm.key_on hgood hgood.head]
  exact h.above

theorem Left.other (h : Left m w) : Left m' w := by
  obtain ⟨leftNode, hw, hon, hlt⟩ := h
  refine ⟨leftNode, hw, hm.on _ hon, ?_⟩
  rw [hm.key_on hgood hon]
  exact hlt

theorem right_other {R : K → K → Prop} {rightNode : Nat}
    (h : rightNode = m.tail ∨ On m rightNode ∧ R w.key (m.key rightNode)) :
    rightNode = m'.tail ∨ On m' rightNode ∧ R w.key (m'.key rightNode) := by
  rw [hm.tail]
  refine h.imp_right fun h => ⟨hm.on _ h.1, ?_⟩
  rw [hm.key_on hgood h.1]
  exact h.2

theorem At.other (hu : u ≠ t) (h : At u pc m) : At u pc m' := by
  cases pc with
  | idle => trivial
  | newNode key val =>
    show m'.key m'.head < key
    rw [hm.head, hm.key_on hgood hgood.head]
    exact h
  | loadFirst w => exact Mine.other hm hgood hu h
  | loadNext w iter =>
    obtain ⟨hmine, hleft, hnext, hon⟩ := h
    exact ⟨hmine.other hm hgood hu, hleft.other hm hgood, hnext, hm.on _ hon⟩
  | unlink w rightNode => exact h.elim
  | checkRight w rightNode | setNext w rightNode =>
    obtain ⟨hmine, hleft, hright⟩ := h
    exact ⟨hmine.other hm hgood hu, hleft.other hm hgood, right_other hm hgood hright⟩
  | link w rightNode =>
    obtain ⟨hmine, hleft, hright, hnext⟩ := h
    refine ⟨hmine.other hm hgood hu, hleft.other hm hgood, right_other hm hgood hright, ?_⟩
    rw [hm.next u _ hu hmine.held]
    exact hnext

end Others

/-! ## The steps -/

variable {rightNode : Nat}

theorem atRight_at (hmine : Mine t m w) (hleft : Left m w) (hnext : w.leftNodeNext = ref rightNode)
    (hright : rightNode = m.tail ∨ On m rightNode ∧ w.key ≤ m.key rightNode) :
    At t (atRight w rightNode) m := by
  rw [atRight, if_pos hnext]
  exact ⟨hmine, hleft, hright⟩

/-- The walk at a node of the list: either the node becomes the left one, or it is the
right one and the left one points to it. -/
theorem walk_at {iter : Nat} (hgood : Good m) (hmine : Mine t m w) (hiter : On m iter)
    (hleft : w.key ≤ m.key iter → Left m w ∧ w.leftNodeNext = ref iter) :
    At t (walk m w iter (m.next iter)) m := by
  obtain ⟨hnext, hnode⟩ := hgood.next hiter
  have hmark : (m.next iter).marked = false := hgood.unmarked (.inr hiter)
  simp only [walk, hmark, Bool.false_eq_true, false_or, if_false]
  split
  · next hlt =>
    have hmine' : Mine t m { w with leftNode := some iter, leftNodeNext := m.next iter } :=
      ⟨hmine.held, hmine.key, hmine.above⟩
    have hleft' : Left m { w with leftNode := some iter, leftNodeNext := m.next iter } :=
      ⟨iter, rfl, hiter, hlt⟩
    split
    · next htail => exact atRight_at hmine' hleft' hnext (.inl htail)
    · next htail => exact ⟨hmine', hleft', hnext, hnode.resolve_left htail⟩
  · next hge =>
    obtain ⟨hleft, hnext⟩ := hleft (not_lt.mp hge)
    exact atRight_at hmine hleft hnext (.inr ⟨hiter, not_lt.mp hge⟩)

theorem newNode_step {key : K} {val : V} (hgood : Good m) (habove : m.key m.head < key)
    (hrun : run t (.newNode key val) m = some (pc', m')) :
    Good m' ∧ At t pc' m' ∧ Moves t m m' ∧ ∀ n, On m' n → On m n := by
  cases hrun
  obtain ⟨l, hl⟩ := hgood
  have hlt : ∀ n, n = m.tail ∨ n ∈ l → n ≠ m.made.count := fun n hn => Nat.ne_of_lt (hl.settled n hn).1
  have hnext : ∀ n, n < m.made.count → update m.next m.made.count null n = m.next n :=
    fun n hn => update_of_ne (Nat.ne_of_lt hn) ..
  have hkey : ∀ n, n < m.made.count → update m.key m.made.count key n = m.key n :=
    fun n hn => update_of_ne (Nat.ne_of_lt hn) ..
  have hsorted : Sorted { m with
      key := update m.key m.made.count key
      val := update m.val m.made.count val
      next := update m.next m.made.count null
      made := m.made.draw t } l :=
    hl.congr rfl rfl (fun n hn => update_of_ne (hlt n hn) ..)
      (fun n hn => update_of_ne (hlt n (.inr hn)) ..) .draw
  have hhead : m.head < m.made.count := (hl.settled _ (.inr hl.head)).1
  refine ⟨⟨l, hsorted⟩, ⟨Fresh.heldBy_draw, update_self .., ?_⟩, ?_, ?_⟩
  · show update m.key m.made.count key m.head < key
    rw [hkey _ hhead]
    exact habove
  · refine ⟨rfl, rfl, .draw, hkey, fun u n _ hn => hnext n hn.1, fun n hn => ?_⟩
    rw [hl.on_iff] at hn
    exact hsorted.on_iff.mpr hn
  · intro n hn
    rw [hsorted.on_iff] at hn
    exact hl.on_iff.mpr hn

/-- The new node is linked between its neighbours. -/
theorem Sorted.link {leftNode : Nat} (h : Sorted m l) (hn : m.made.HeldBy t n)
    (hleft : leftNode ∈ l) (hlt : m.key leftNode < m.key n)
    (hright : rightNode = m.tail ∨ rightNode ∈ l ∧ m.key n < m.key rightNode)
    (hnext : m.next leftNode = ref rightNode) (hmine : m.next n = ref rightNode) :
    ∃ l', Sorted { m with next := update m.next leftNode (ref n), made := m.made.settle n } l' ∧
      ∀ x, x ∈ l' ↔ x = n ∨ x ∈ l := by
  obtain ⟨l₁, l₂, rfl⟩ := List.append_of_mem hleft
  have hnot : ∀ x, x = m.tail ∨ x ∈ l₁ ++ leftNode :: l₂ → x ≠ n := fun x hx => (h.settled x hx).ne hn
  have hmem : ∀ x, x ∈ l₁ ++ leftNode :: n :: l₂ ↔ x = n ∨ x ∈ l₁ ++ leftNode :: l₂ := by
    intro x
    simp only [List.mem_append, List.mem_cons]
    tauto
  -- all behind the right node is larger still
  have hafter : ∀ x ∈ l₂, m.key n < m.key x := by
    have hlinks : Links (fun n => (m.next n).node) m.tail rightNode l₂ := by
      have := h.nodes.after
      rwa [hnext] at this
    intro x hx
    cases l₂ with
    | nil => cases hx
    | cons y l₃ =>
      obtain ⟨rfl, hne, -⟩ := hlinks
      have hlty : m.key n < m.key rightNode := (hright.resolve_left hne).2
      rcases List.mem_cons.mp hx with rfl | hx
      · exact hlty
      · have hpair := (List.pairwise_append.mp h.sorted).2.1
        exact hlty.trans ((List.pairwise_cons.mp (List.pairwise_cons.mp hpair).2).1 x hx)
  refine ⟨l₁ ++ leftNode :: n :: l₂, ⟨?_, ?_, ?_, ?_, ?_⟩, hmem⟩
  · refine Links.insert (hnot _ (.inl rfl)).symm ?_ ?_ h.nodes h.nodup ?_
    · simp [ref]
    · have : n ≠ leftNode := (hnot _ (.inr hleft)).symm
      simp only [update_of_ne this, hmine, hnext]
    · intro d _ hd
      simp only [update_of_ne hd]
  · exact (hmem _).mpr (.inr h.head)
  · obtain ⟨hbefore, hrest, hcross⟩ := List.pairwise_append.mp h.sorted
    obtain ⟨hleft₂, hl₂⟩ := List.pairwise_cons.mp hrest
    refine List.pairwise_append.mpr ⟨hbefore, List.pairwise_cons.mpr ⟨?_,
      List.pairwise_cons.mpr ⟨hafter, hl₂⟩⟩, ?_⟩
    · intro x hx
      rcases List.mem_cons.mp hx with rfl | hx
      · exact hlt
      · exact hleft₂ x hx
    · intro x hx y hy
      have hxleft := hcross x hx leftNode (.head _)
      rcases List.mem_cons.mp hy with rfl | hy
      · exact hxleft
      · rcases List.mem_cons.mp hy with rfl | hy
        · exact hxleft.trans hlt
        · exact hcross x hx y (.tail _ hy)
  · intro x hx
    rw [hmem] at hx
    rcases hx with htail | rfl | hx
    · exact (h.settled x (.inl htail)).step (.settle hn)
    · exact hn.settle
    · exact (h.settled x (.inr hx)).step (.settle hn)
  · intro x hx
    dsimp only
    by_cases heq : x = leftNode
    · rw [heq, update_self]
      rfl
    · rw [update_of_ne heq]
      rw [hmem] at hx
      rcases hx with htail | rfl | hx
      · exact h.unmarked x (.inl htail)
      · rw [hmine]
        rfl
      · exact h.unmarked x (.inr hx)

theorem setNext_step (hgood : Good m) (hat : At t (.setNext w rightNode) m)
    (hrun : run t (.setNext w rightNode) m = some (pc', m')) :
    Good m' ∧ At t pc' m' ∧ Moves t m m' ∧ ∀ n, On m' n → On m n := by
  cases hrun
  obtain ⟨hmine, hleft, hright⟩ := hat
  obtain ⟨l, hl⟩ := hgood
  have hne : ∀ n, n = m.tail ∨ n ∈ l → n ≠ w.newElem := fun n hn => (hl.settled n hn).ne hmine.held
  have hsorted : Sorted { m with next := update m.next w.newElem (ref rightNode) } l :=
    hl.congr (t := t) rfl rfl (fun n hn => update_of_ne (hne n hn) ..) (fun _ _ => rfl) .stay
  have hmoves : Moves t m { m with next := update m.next w.newElem (ref rightNode) } := by
    refine ⟨rfl, rfl, .stay, fun _ _ => rfl, fun u n hu hn => update_of_ne ?_ .., ?_⟩
    · intro heq
      rw [heq] at hn
      exact hu (Option.some.inj (hn.2.symm.trans hmine.held.2))
    · intro n hn
      rw [hl.on_iff] at hn
      exact hsorted.on_iff.mpr hn
  refine ⟨⟨l, hsorted⟩, ⟨⟨hmine.held, hmine.key, hmine.above⟩, hleft.other hmoves ⟨l, hl⟩,
    right_other hmoves ⟨l, hl⟩ hright, update_self ..⟩, hmoves, ?_⟩
  intro n hn
  rw [hsorted.on_iff] at hn
  exact hl.on_iff.mpr hn

/-- The key a thread is inserting. -/
def Pc.key : Pc K V → Option K
  | .idle => none
  | .newNode key _ => some key
  | .loadFirst w | .loadNext w _ | .unlink w _ | .checkRight w _ | .setNext w _ | .link w _ => some w.key

/-- What a step does: it keeps the list and what threads know, links no other node than one
with the thread's key, and ends the call only when the key is on the list. -/
structure Step (t : Nat) (pc : Pc K V) (m : Mem K V) (pc' : Pc K V) (m' : Mem K V) : Prop where
  good : Good m'
  knows : At t pc' m'
  moves : Moves t m m'
  linked : ∀ n, On m' n → On m n ∨ pc.key = some (m'.key n)
  ends : pc'.key = pc.key ∨ pc' = .idle ∧ ∃ n, On m' n ∧ n ≠ m'.head ∧ pc.key = some (m'.key n)

theorem key_walk {iter : Nat} {tNext : Ref} : (walk m w iter tNext : Pc K V).key = some w.key := by
  simp only [walk, atRight]
  split
  · split <;> split <;> first | rfl | (split <;> rfl)
  · split <;> rfl

theorem Step.load (hgood : Good m) (hat : At t pc' m)
    (hends : pc'.key = pc.key ∨ pc' = .idle ∧ ∃ n, On m n ∧ n ≠ m.head ∧ pc.key = some (m.key n)) :
    Step t pc m pc' m :=
  ⟨hgood, hat, .refl, fun _ hn => .inl hn, hends⟩

theorem checkRight_step (hgood : Good m) (hat : At t (.checkRight w rightNode) m)
    (hrun : run t (.checkRight w rightNode) m = some (pc', m')) :
    Step t (.checkRight w rightNode) m pc' m' := by
  cases hrun
  obtain ⟨hmine, hleft, hright⟩ := hat
  have hmark : (m.next rightNode).marked = false := hgood.unmarked (hright.imp_right And.left)
  simp only [hmark, Bool.false_eq_true, if_false, searched]
  split
  · next hfound =>
    obtain ⟨hon, -⟩ := hright.resolve_left hfound.1
    refine .load hgood trivial (.inr ⟨rfl, rightNode, hon, ?_, ?_⟩)
    · rintro rfl
      exact absurd hmine.above (by rw [hfound.2]; exact lt_irrefl _)
    · rw [hfound.2]
      rfl
  · next hnot =>
    refine .load hgood ⟨hmine, hleft, ?_⟩ (.inl rfl)
    by_cases htail : rightNode = m.tail
    · exact .inl htail
    · obtain ⟨hon, hle⟩ := hright.resolve_left htail
      exact .inr ⟨hon, lt_of_le_of_ne hle fun heq => hnot ⟨htail, heq.symm⟩⟩

theorem link_step (hgood : Good m) (hat : At t (.link w rightNode) m)
    (hrun : run t (.link w rightNode) m = some (pc', m')) :
    Step t (.link w rightNode) m pc' m' := by
  obtain ⟨hmine, ⟨leftNode, hw, hon, hlt⟩, hright, hnext⟩ := hat
  simp only [run, hw, Option.bind_some] at hrun
  split at hrun
  · next hcas =>
    cases hrun
    obtain ⟨l, hl⟩ := hgood
    rw [hl.on_iff] at hon
    rw [hl.on_iff] at hright
    rw [← hmine.key] at hlt hright
    obtain ⟨l', hl', hmem⟩ := hl.link hmine.held hon hlt hright hcas hnext
    have hnew : ∀ n, n = m.tail ∨ n ∈ l → n ≠ w.newElem := fun n hn => (hl.settled n hn).ne hmine.held
    refine ⟨⟨l', hl'⟩, trivial, ?_, ?_, .inr ⟨rfl, w.newElem, ?_, ?_, ?_⟩⟩
    · refine ⟨rfl, rfl, .settle hmine.held, fun _ _ => rfl, fun u n _ hn => ?_, fun n hn => ?_⟩
      · exact update_of_ne ((hl.settled leftNode (.inr hon)).ne hn).symm ..
      · rw [hl.on_iff] at hn
        exact hl'.on_iff.mpr ((hmem n).mpr (.inr hn))
    · intro n hn
      rw [hl'.on_iff, hmem] at hn
      rcases hn with rfl | hn
      · exact .inr (congrArg some hmine.key.symm)
      · exact .inl (hl.on_iff.mpr hn)
    · exact hl'.on_iff.mpr ((hmem _).mpr (.inl rfl))
    · exact (hnew _ (.inr hl.head)).symm
    · exact congrArg some hmine.key.symm
  · cases hrun
    exact .load hgood ⟨hmine.held, hmine.key, hmine.above⟩ (.inl rfl)

theorem run_step (hgood : Good m) (hat : At t pc m) (hrun : run t pc m = some (pc', m')) :
    Step t pc m pc' m' := by
  cases pc with
  | idle => cases hrun
  | newNode key val =>
    obtain ⟨hgood', hat', hmoves, hon⟩ := newNode_step hgood hat hrun
    cases hrun
    exact ⟨hgood', hat', hmoves, fun n hn => .inl (hon n hn), .inl rfl⟩
  | loadFirst w =>
    cases hrun
    refine .load hgood (walk_at hgood hat hgood.head fun hle => ?_) (.inl key_walk)
    exact absurd hat.above (not_lt.mpr hle)
  | loadNext w iter =>
    cases hrun
    obtain ⟨hmine, hleft, hnext, hon⟩ := hat
    exact .load hgood (walk_at hgood hmine hon fun _ => ⟨hleft, hnext⟩) (.inl key_walk)
  | unlink w rightNode => exact hat.elim
  | checkRight w rightNode => exact checkRight_step hgood hat hrun
  | setNext w rightNode =>
    obtain ⟨hgood', hat', hmoves, hon⟩ := setNext_step hgood hat hrun
    cases hrun
    exact ⟨hgood', hat', hmoves, fun n hn => .inl (hon n hn), .inl rfl⟩
  | link w rightNode => exact link_step hgood hat hrun

/-! ## Runs -/

/-- The key is on the list, the head aside. -/
def Has (m : Mem K V) (k : K) : Prop := ∃ n, On m n ∧ n ≠ m.head ∧ m.key n = k

omit [LinearOrder K] in
theorem call_eq {op : Op K V} (h : call t op pc m = some (pc', m')) :
    pc = .idle ∧ m' = m ∧ ∃ key val, op = .insert key val ∧ pc' = .newNode key val := by
  unfold call at h
  split at h <;> cases h
  exact ⟨rfl, rfl, _, _, rfl, rfl⟩

section Runs

variable {s : Sys (Mem K V) (Pc K V)} {keys called : List K}

/-- A sorted list with no call under way. -/
def begun (s : Sys (Mem K V) (Pc K V)) : Prop := Good s.mem ∧ ∀ t, s.loc t = .idle

theorem holds_of_reach (h : machine.Reach aboveHead begun s) : Machine.Holds Good At s := by
  refine h.invariant ?_ ?_
  · intro s ⟨hgood, hidle⟩
    refine ⟨hgood, fun t => ?_⟩
    rw [hidle t]
    trivial
  · intro s a pc m ⟨hgood, hat⟩ habove hact
    cases a with
    | call t op =>
      obtain ⟨-, rfl, key, val, rfl, rfl⟩ := call_eq (t := t) hact
      exact ⟨hgood, habove, fun u _ => hat u⟩
    | run t =>
      have hstep := run_step hgood (hat t) hact
      exact ⟨hstep.good, hstep.knows, fun u hu => (hat u).other hstep.moves hgood hu⟩

/-- The keys on the list are the initial ones and called ones, and a called one is there
or on its way. -/
structure Called (keys : List K) (s : Sys (Mem K V) (Pc K V)) (called : List K) : Prop where
  sound : ∀ n, On s.mem n → n = s.mem.head ∨ s.mem.key n ∈ keys ∨ s.mem.key n ∈ called
  initial : ∀ k ∈ keys, Has s.mem k
  complete : ∀ k ∈ called, Has s.mem k ∨ ∃ t, (s.loc t).key = some k
  current : ∀ t k, (s.loc t).key = some k → k ∈ called

theorem Has.moves {k : K} (h : Has m k) (hm : Moves t m m') (hgood : Good m) : Has m' k := by
  obtain ⟨n, hon, hne, rfl⟩ := h
  exact ⟨n, hm.on n hon, hm.head ▸ hne, hm.key_on hgood hon⟩

omit [LinearOrder K] in
theorem Called.call {key : K} {val : V} (h : Called keys s called) (hidle : s.loc t = .idle) :
    Called keys ⟨s.mem, update s.loc t (.newNode key val)⟩ (called ++ [key]) := by
  have hmem : ∀ {k}, k ∈ called → k ∈ called ++ [key] := fun hk => List.mem_append_left _ hk
  refine ⟨fun n hn => (h.sound n hn).imp_right (Or.imp_right hmem), h.initial, ?_, ?_⟩
  · intro k hk
    rcases List.mem_append.mp hk with hk | hk
    · refine (h.complete k hk).imp_right fun hcur => ?_
      obtain ⟨u, hu⟩ := hcur
      have hne : u ≠ t := by
        rintro rfl
        rw [hidle] at hu
        cases hu
      exact ⟨u, by dsimp only; rw [update_of_ne hne]; exact hu⟩
    · rw [List.mem_singleton.mp hk]
      exact .inr ⟨t, by dsimp only; rw [update_self]; rfl⟩
  · intro u k hk
    dsimp only at hk
    by_cases hu : u = t
    · rw [hu, update_self] at hk
      cases hk
      simp
    · rw [update_of_ne hu] at hk
      exact hmem (h.current u k hk)

theorem Called.run (h : Called keys s called) (hgood : Good s.mem) (hstep : Step t (s.loc t) s.mem pc m) :
    Called keys ⟨m, update s.loc t pc⟩ called := by
  refine ⟨?_, fun k hk => (h.initial k hk).moves hstep.moves hgood, ?_, ?_⟩
  · intro n hn
    rcases hstep.linked n hn with hold | hnew
    · rw [hstep.moves.head, hstep.moves.key_on hgood hold]
      exact h.sound n hold
    · exact .inr (.inr (h.current t _ hnew))
  · intro k hk
    rcases h.complete k hk with hhas | ⟨u, hu⟩
    · exact .inl (hhas.moves hstep.moves hgood)
    · by_cases hut : u = t
      · rw [hut] at hu
        rcases hstep.ends with hsame | ⟨-, n, hon, hne, hkey⟩
        · exact .inr ⟨t, by dsimp only; rw [update_self, hsame]; exact hu⟩
        · rw [hu] at hkey
          exact .inl ⟨n, hon, hne, (Option.some.inj hkey).symm⟩
      · exact .inr ⟨u, by dsimp only; rw [update_of_ne hut]; exact hu⟩
  · intro u k hk
    dsimp only at hk
    by_cases hut : u = t
    · rw [hut, update_self] at hk
      rcases hstep.ends with hsame | ⟨hidle, -⟩
      · exact h.current t k (hsame ▸ hk)
      · rw [hidle] at hk
        cases hk
    · rw [update_of_ne hut] at hk
      exact h.current u k hk

variable {s : Sys (Mem K V × List K) (Pc K V)}

theorem Starts.sorted_nodes (h : Starts keys s) :
    ∃ l, Sorted s.mem.1 (s.mem.1.head :: l) ∧ l.map s.mem.1.key = keys := by
  obtain ⟨⟨l, hnodes, hkeys, hsettled⟩, hsorted, -, -⟩ := h
  have hall : ∀ n, n = s.mem.1.tail ∨ n ∈ s.mem.1.head :: l →
      s.mem.1.made.Settled n ∧ (s.mem.1.next n).marked = false :=
    fun n hn => hsettled n (List.mem_cons.mpr hn)
  refine ⟨l, ⟨hnodes, .head _, ?_, fun n hn => (hall n hn).1, fun n hn => (hall n hn).2⟩, hkeys⟩
  rw [← hkeys, ← List.map_cons, List.pairwise_map] at hsorted
  exact hsorted

theorem Starts.begun_called (h : Starts keys s) :
    begun s.forget ∧ Called keys s.forget s.mem.2 := by
  obtain ⟨l, hl, hkeys⟩ := h.sorted_nodes
  refine ⟨⟨⟨_, hl⟩, h.quiet⟩, ?_, ?_, ?_, ?_⟩
  · intro n hn
    rcases List.mem_cons.mp (hl.on_iff.mp hn) with hhead | hn
    · exact .inl hhead
    · exact .inr (.inl (hkeys ▸ List.mem_map_of_mem hn))
  · intro k hk
    rw [← hkeys] at hk
    obtain ⟨n, hn, rfl⟩ := List.mem_map.mp hk
    refine ⟨n, hl.on_iff.mpr (.tail _ hn), ?_, rfl⟩
    rintro rfl
    exact (List.nodup_cons.mp hl.nodup).1 hn
  · rw [h.none_called]
    exact nofun
  · intro t k hk
    rw [Sys.forget, h.quiet t] at hk
    cases hk

theorem called_of_reach
    (h : (machine.record log).Reach (fun s a => aboveHead s.forget a) (Starts keys) s) :
    Called keys s.forget s.mem.2 := by
  refine h.recorded (fun _ => Starts.begun_called) ?_
  intro s a pc m called hr _ hact hcalled
  obtain ⟨hgood, hat⟩ := holds_of_reach hr
  cases a with
  | call t op =>
    obtain ⟨hidle, rfl, key, val, rfl, rfl⟩ := call_eq (t := t) hact
    rw [Act.thread, hidle]
    exact hcalled.call hidle
  | run t =>
    have hstep := run_step hgood (hat t) hact
    have hlog : log t (s.loc t) s.mem pc called = called := by
      rw [log]
      intro key val hidle
      have hrun : run t (s.loc t) s.mem = some (pc, m) := hact
      rw [hidle] at hrun
      cases hrun
    rw [Act.thread, hlog]
    exact hcalled.run hgood hstep

/-- In every run of inserts the keys along the list increase, from the head on. When all
calls have returned, they are those of the calls and the initial ones, each once. -/
theorem inserts_sorted {s : Sys (Mem K V × List K) (Pc K V)}
    (h : (machine.record log).Reach (fun s a => aboveHead s.forget a) (Starts keys) s) :
    ∃ l, s.mem.1.Nodes (s.mem.1.head :: l) ∧
      ((s.mem.1.head :: l).map s.mem.1.key).Pairwise (· < ·) ∧
      (Quiet s → ∀ k, k ∈ l.map s.mem.1.key ↔ k ∈ keys ∨ k ∈ s.mem.2) := by
  have hreach : machine.Reach aboveHead begun s.forget := h.forget fun s hs => hs.begun_called.1
  obtain ⟨⟨l', hl'⟩, -⟩ := holds_of_reach hreach
  have hcalled := called_of_reach h
  cases l' with
  | nil => cases hl'.head
  | cons a l =>
    obtain rfl : s.mem.1.head = a := hl'.nodes.1
    have hsorted : ((s.mem.1.head :: l).map s.mem.1.key).Pairwise (· < ·) :=
      List.pairwise_map.mpr hl'.sorted
    refine ⟨l, hl'.nodes, hsorted, fun hquiet k => ⟨?_, ?_⟩⟩
    · intro hk
      obtain ⟨n, hn, rfl⟩ := List.mem_map.mp hk
      refine (hcalled.sound n (hl'.on_iff.mpr (.tail _ hn))).resolve_left ?_
      rintro rfl
      exact (List.nodup_cons.mp hl'.nodup).1 hn
    · have hhas : Has s.mem.1 k → k ∈ l.map s.mem.1.key := by
        intro hk
        obtain ⟨n, hon, hne, rfl⟩ := hk
        exact List.mem_map_of_mem ((List.mem_cons.mp (hl'.on_iff.mp hon)).resolve_left hne)
      intro hk
      rcases hk with hk | hk
      · exact hhas (hcalled.initial k hk)
      · rcases hcalled.complete k hk with hk | ⟨t, ht⟩
        · exact hhas hk
        · rw [Sys.forget, hquiet t] at ht
          cases ht

/-- A list with one key, 5. -/
def single : Sys (Mem Nat Nat × List Nat) (Pc Nat Nat) :=
  ⟨(⟨0, 1, fun n => if n = 2 then 5 else 0, fun _ => 0,
      fun n => if n = 0 then ref 2 else if n = 2 then ref 1 else null, ⟨3, fun _ => none⟩⟩, []),
    fun _ => .idle⟩

theorem single_starts : Starts [5] single := by
  refine ⟨⟨[2], ⟨rfl, by decide, rfl, by decide, rfl⟩, rfl, ?_⟩, by decide, rfl, fun _ => rfl⟩
  intro n hn
  have hall : ∀ n ∈ [1, 0, 2], (n < 3 ∧ single.mem.1.made.holder n = none) ∧
      (single.mem.1.next n).marked = false := by decide
  exact hall n hn

/-- Two inserts that find the same neighbours: the second one to link its node finds it
has to search again. A third one inserts a key that is there by then. -/
def sameGap : List (Act (Op Nat Nat)) :=
  [Act.call 0 (Op.insert 3 0), Act.call 1 (Op.insert 4 0), Act.call 2 (Op.insert 3 1)] ++
    List.replicate 5 (Act.run 0) ++ List.replicate 5 (Act.run 1) ++ [Act.run 0] ++
    List.replicate 7 (Act.run 1) ++ List.replicate 4 (Act.run 2)

theorem sameGap_run : ((machine.record log).runUnder (fun s a => aboveHead s.forget a) sameGap single).any
    fun s => s.mem.2 = [3, 4, 3] ∧ ∀ u < 3, s.loc u = .idle := by
  decide +kernel

theorem inserts_sorted_sameGap : ∃ s : Sys (Mem Nat Nat × List Nat) (Pc Nat Nat),
    (machine.record log).Reach (fun s a => aboveHead s.forget a) (Starts [5]) s ∧ Quiet s ∧
      ∃ l, s.mem.1.Nodes (s.mem.1.head :: l) ∧
        ((s.mem.1.head :: l).map s.mem.1.key).Pairwise (· < ·) ∧
        ∀ k, k ∈ l.map s.mem.1.key ↔ k ∈ [5] ∨ k ∈ [3, 4, 3] := by
  obtain ⟨s, hs, hreach, hcalled, hidle⟩ :=
    Machine.reach_of_any (Starts [5]) single_starts sameGap_run
  have hquiet : Quiet s := Machine.runUnder_rest (fun _ => rfl) (by decide) hs hidle
  obtain ⟨l, hnodes, hsorted, hkeys⟩ := inserts_sorted hreach
  exact ⟨s, hreach, hquiet, l, hnodes, hsorted, hcalled ▸ hkeys hquiet⟩

end Runs

end ShmPcc.SortedList
