import ShmPcc.Proofs.CxlSizeClass
import ShmPcc.Ref.CxlHash

/-!
# The hash index is a map

Every item is in exactly one chain, the one of its table and its hash, and no two items
have one key. The words of an item are in a block of its own, behind the tables, so a
store to one item leaves the others and the heads of the chains alone; a new item gets a
block that nobody has, from the allocator, whose invariant goes along.

`get` takes the table from the top byte of the key and does not ask whether there is
such a table. Beyond the 64 tables lie the segments: for a key with a larger top byte
`get` takes a word of an object for the head of a chain.
-/

namespace ShmPcc.CxlHash

open Function Prog
open CxlAlloc (pageOf segmentOf isBlock pageSize pagesPerSegment firstSegment sizeofCXLObj)
open CxlLayout (hashTableStart hashTableSize segmentsAreaStart)

variable {C : Config} {m m' : Mem} {u t i q b c : Nat}

/-! ## The allocator, as long as nothing is freed -/

/-- The block is an item. -/
def Mem.IsItem (m : Mem) (b : Nat) : Prop := m.blocks.place b = .out false

/-- Only items were allocated and nothing was freed. -/
structure Quiet (m : Mem) : Prop where
  inv : CxlAlloc.Inv m.blocks
  places : ∀ b, m.blocks.place b = .none ∨ m.blocks.place b = .free ∨ m.IsItem b
  low : ∀ n, n < firstSegment → (m.blocks.sas n).threadId = 0
  queue : ∀ t i q, q ∈ (m.blocks.tls t).pages i → i = itemQueue

namespace Quiet

theorem no_other_place (h : Quiet m) {p : CxlAlloc.Place} (hb : m.blocks.place b = p)
    (hnone : p ≠ .none) (hfree : p ≠ .free) (hout : p ≠ .out false) : False := by
  obtain hp | hp | hp := h.places b
  · exact hnone (hb.symm.trans hp)
  · exact hfree (hb.symm.trans hp)
  · exact hout (hb.symm.trans hp)

theorem page (h : Quiet m) (hb : m.blocks.place b ≠ .none) :
    ∃ t, pageOf b ∈ (m.blocks.tls t).pages itemQueue := by
  obtain ⟨t, i, hq⟩ := h.inv.queued_of_placed hb
  exact ⟨t, h.queue t i _ hq ▸ hq⟩

theorem blockSize (h : Quiet m) (hb : m.blocks.place b ≠ .none) :
    (m.blocks.page (pageOf b)).blockSize = 48 := by
  obtain ⟨t, hq⟩ := h.page hb
  exact (h.inv.queued t _ _ hq).2.2.size

theorem threadFree_zero (h : Quiet m) (hq : q ∈ (m.blocks.tls u).pages i) :
    (m.blocks.sas (segmentOf q)).info.threadFree = 0 := by
  obtain ⟨hu, _, hok⟩ := h.inv.queued u i q hq
  exact (h.inv.threadFree _ (by rw [hok.owner]; exact hu)).null_of_empty
    fun b hb => h.no_other_place hb.2 nofun nofun nofun

theorem collectLocal (h : Quiet m) (hq : q ∈ (m.blocks.tls u).pages i) :
    m.blocks.collectLocal q = m.blocks := by
  have hzero : (m.blocks.page q).localFree = 0 :=
    (h.inv.queued u i q hq).2.2.localFree.null_of_empty fun b hb => h.no_other_place hb.2 nofun nofun nofun
  exact if_neg fun hne => hne.1 hzero

theorem segment_le (h : Quiet m) (hn : (m.blocks.sas (segmentOf q)).threadId ≠ 0) :
    segmentsAreaStart ≤ q * pageSize := by
  have hseg : firstSegment ≤ segmentOf q := by
    by_contra hlt
    exact hn (h.low _ (by omega))
  have hq : firstSegment * pagesPerSegment ≤ q :=
    Nat.le_trans (Nat.mul_le_mul_right _ hseg) (Nat.div_mul_le_self ..)
  calc segmentsAreaStart = firstSegment * pagesPerSegment * pageSize := by decide
    _ ≤ q * pageSize := Nat.mul_le_mul_right _ hq

theorem area_le (h : Quiet m) (hb : m.blocks.place b ≠ .none) : segmentsAreaStart ≤ b :=
  Nat.le_trans (h.segment_le (h.inv.owner_of_placed hb)) (Nat.div_mul_le_self ..)

theorem apart (h : Quiet m) (hb : m.blocks.place b ≠ .none) (hc : m.blocks.place c ≠ .none)
    (hne : b ≠ c) : b + 48 ≤ c ∨ c + 48 ≤ b := by
  obtain hlt | hlt := Nat.lt_or_gt_of_ne hne
  · have := h.inv.block_end_le hb hc hlt
    rw [h.blockSize hb] at this
    exact .inl this
  · have := h.inv.block_end_le hc hb hlt
    rw [h.blockSize hc] at this
    exact .inr this

end Quiet

theorem IsItem.placed (h : m.IsItem b) : m.blocks.place b ≠ .none := by
  rw [show m.blocks.place b = .out false from h]
  nofun

/-- What an allocation leaves alone. -/
structure Kept (m m' : Mem) : Prop where
  items : ∀ b, m'.IsItem b ↔ m.IsItem b
  tables : ∀ a, a < segmentsAreaStart → m'.word a = m.word a
  data : ∀ b x, m.IsItem b → x < 48 → m'.word (b + x) = m.word (b + x)

theorem Kept.refl : Kept m m := ⟨fun _ => .rfl, fun _ _ => rfl, fun _ _ _ _ => rfl⟩

theorem Kept.trans {m₁ m₂ m₃ : Mem} (h : Kept m₁ m₂) (h' : Kept m₂ m₃) : Kept m₁ m₃ where
  items b := (h'.items b).trans (h.items b)
  tables a ha := (h'.tables a ha).trans (h.tables a ha)
  data b x hb hx := (h'.data b x ((h.items b).mpr hb) hx).trans (h.data b x hb hx)

variable {n : Nat}

theorem Quiet.segmentAlloc (h : Quiet m) (hu : u ≠ 0)
    (hn : (m.blocks.sas (firstSegment + n)).threadId = 0) :
    Quiet (onBlocks (·.segmentAlloc u (firstSegment + n)) m) ∧
      Kept m (onBlocks (·.segmentAlloc u (firstSegment + n)) m) := by
  refine ⟨⟨CxlAlloc.Move.inv (.segmentAlloc hn hu) h.inv, h.places, fun k hk => ?_,
    fun t i q hq => ?_⟩, ⟨fun _ => .rfl, fun _ _ => rfl, fun _ _ _ _ => rfl⟩⟩
  · show ((m.blocks.segmentAlloc u (firstSegment + n)).sas k).threadId = 0
    rw [CxlAlloc.segmentAlloc_sas_ne (by omega)]
    exact h.low k hk
  · have hq' : q ∈ ((m.blocks.segmentAlloc u (firstSegment + n)).tls t).pages i := hq
    rw [CxlAlloc.segmentAlloc_pages] at hq'
    exact h.queue t i q hq'

theorem pageOf_of_cleared {a : Nat} (h : cleared q 48 a = true) : pageOf a = q := by
  have hheader : ∀ {x c}, x < 48 → a = c + x → isHeader q 48 c = true → pageOf a = q := by
    intro x c hx ha hc
    simp only [isHeader, decide_eq_true_eq] at hc
    have hend := CxlAlloc.isBlock_end hc.2.1
    rw [hc.1] at hend
    have hle : pageOf c * pageSize ≤ c := Nat.div_mul_le_self ..
    rw [hc.1] at hle
    refine Nat.div_eq_of_lt_le ?_ ?_
    · omega
    · omega
  simp only [cleared, decide_eq_true_eq] at h
  obtain ⟨ha, hc⟩ | ⟨ha, hc⟩ := h
  · exact hheader (show 8 < 48 by decide) (by omega) hc
  · exact hheader (show 16 < 48 by decide) (by omega) hc

theorem Quiet.pageFresh (h : Quiet m) {rest : List Nat}
    (hq : (m.blocks.tls u).freePage = q :: rest) :
    Quiet (m.pageFresh u itemQueue q rest) ∧ Kept m (m.pageFresh u itemQueue q rest) ∧
      q ∈ ((m.pageFresh u itemQueue q rest).blocks.tls u).pages itemQueue ∧
      ((m.pageFresh u itemQueue q rest).blocks.page q).free ≠ 0 := by
  obtain ⟨hu, howner, hin, hz⟩ := h.inv.freePage u q (hq ▸ .head _)
  have hplace : ∀ b, (m.blocks.pageFresh u itemQueue q rest).place b = .free ∧ pageOf b = q ∨
      (m.blocks.pageFresh u itemQueue q rest).place b = m.blocks.place b := by
    intro b
    rw [CxlAlloc.pageFresh_place]
    split
    · next hb => exact .inl ⟨rfl, hb.1⟩
    · exact .inr rfl
  have hitems : ∀ b, (m.pageFresh u itemQueue q rest).IsItem b ↔ m.IsItem b := by
    intro b
    show (m.blocks.pageFresh u itemQueue q rest).place b = _ ↔ m.blocks.place b = _
    obtain ⟨hb, hpage⟩ | hb := hplace b
    · rw [hb, h.inv.unplaced b (hpage ▸ hz)]
      exact iff_of_false nofun nofun
    · rw [hb]
  have hword : ∀ a, pageOf a ≠ q → (m.pageFresh u itemQueue q rest).word a = m.word a :=
    fun a ha => if_neg fun hc => ha (pageOf_of_cleared hc)
  have hnotin : ∀ b, m.IsItem b → pageOf b ≠ q := by
    intro b hb hpage
    exact IsItem.placed hb (h.inv.unplaced b (hpage ▸ hz))
  refine ⟨⟨CxlAlloc.Move.inv (.pageFresh (by decide) hq) h.inv, fun b => ?_, h.low, fun t i q' hq' => ?_⟩,
    ⟨hitems, fun a ha => hword a fun hpage => ?_, fun b x hb hx => hword _ fun hpage => ?_⟩, ?_, ?_⟩
  · obtain ⟨hb, _⟩ | hb := hplace b
    · exact .inr (.inl hb)
    · show (m.blocks.pageFresh u itemQueue q rest).place b = _ ∨
        (m.blocks.pageFresh u itemQueue q rest).place b = _ ∨
        (m.blocks.pageFresh u itemQueue q rest).place b = _
      rw [hb]
      exact h.places b
  · obtain ⟨_, hi, _⟩ | hq' := CxlAlloc.mem_pageFresh_pages.mp hq'
    · exact hi
    · exact h.queue t i q' hq'
  · have harea := h.segment_le (by rw [howner]; exact hu)
    have hle : pageOf a * pageSize ≤ a := Nat.div_mul_le_self ..
    rw [hpage] at hle
    omega
  · refine hnotin b hb ?_
    have hend := CxlAlloc.isBlock_end (h.inv.isBlock_of_placed (IsItem.placed hb))
    rw [h.blockSize (IsItem.placed hb)] at hend
    have hle : pageOf b * pageSize ≤ b := Nat.div_mul_le_self ..
    rw [← hpage]
    refine (Nat.div_eq_of_lt_le ?_ ?_).symm
    · omega
    · omega
  · exact CxlAlloc.mem_pageFresh_pages.mpr (.inl ⟨rfl, rfl, rfl⟩)
  · show ((m.blocks.pageFresh u itemQueue q rest).page q).free ≠ 0
    rw [CxlAlloc.pageFresh_page, update_self]
    have hq0 : q ≠ 0 := by
      rintro rfl
      exact hin rfl
    exact Nat.mul_ne_zero hq0 (by decide)

/-! ## The code of an allocation -/

theorem pageFreeCollect_ends (h : Quiet m) (hq : q ∈ (m.blocks.tls u).pages i) :
    (pageFreeCollect C u q).ends (fun _ m' => m' = m) m := by
  rw [pageFreeCollect, ends_bind, ends_read, if_pos (h.threadFree_zero hq)]
  show onBlocks (·.collectLocal q) m = m
  rw [onBlocks, h.collectLocal hq]

theorem findFreeEx_ends (h : Quiet m) : ∀ qs, (∀ q ∈ qs, q ∈ (m.blocks.tls u).pages i) →
    (findFreeEx C u qs).ends (fun r m' => m' = m ∧
      ∀ q, r = some q → q ∈ qs ∧ (m.blocks.page q).free ≠ 0) m := by
  intro qs
  induction qs with
  | nil => exact fun _ => ⟨rfl, nofun⟩
  | cons q rest ih =>
    intro hqs
    rw [findFreeEx, ends_bind]
    refine ends_mono ?_ (pageFreeCollect_ends h (hqs q (.head _)))
    rintro _ m₁ rfl
    rw [ends_bind, ends_read]
    split
    · next hfree =>
      refine ⟨rfl, fun q' hq' => ?_⟩
      cases hq'
      exact ⟨.head _, hfree⟩
    · refine ends_mono ?_ (ih fun q' hq' => hqs q' (.tail _ hq'))
      rintro r m₂ ⟨rfl, hr⟩
      exact ⟨rfl, fun q' hq' => ⟨.tail _ (hr q' hq').1, (hr q' hq').2⟩⟩

theorem segmentAlloc_ends (h : Quiet m) (hu : u ≠ 0) : ∀ n count,
    (segmentAlloc u n count).ends (fun _ m' => Quiet m' ∧ Kept m m') m := by
  intro n
  induction n with
  | zero => exact fun _ => ⟨h, .refl⟩
  | succ n ih =>
    intro count
    rw [segmentAlloc, ends_bind, ends_rmw]
    by_cases hfree : (m.blocks.sas (firstSegment + count)).threadId = 0
    · rw [if_pos (beq_iff_eq.mpr hfree), if_pos hfree]
      exact h.segmentAlloc hu hfree
    · rw [if_neg (fun hbeq => hfree (beq_iff_eq.mp hbeq)), if_neg hfree]
      exact ih (count + 1)

/-- The allocation has found a page with a free block. -/
structure Ready (u q : Nat) (m m' : Mem) : Prop where
  quiet : Quiet m'
  kept : Kept m m'
  queue : q ∈ (m'.blocks.tls u).pages itemQueue
  free : (m'.blocks.page q).free ≠ 0

theorem pageFresh_ends (hu : u ≠ 0) : ∀ n (m : Mem), Quiet m →
    (pageFresh C u itemQueue n).ends (fun q m' => Ready u q m m') m := by
  intro n
  induction n with
  | zero => exact fun _ _ => trivial
  | succ n ih =>
    intro m h
    rw [pageFresh, ends_bind, ends_read]
    split
    · next q rest hq =>
      obtain ⟨hquiet, hkept, hqueue, hfree⟩ := h.pageFresh hq
      exact ⟨hquiet, hkept, hqueue, hfree⟩
    · rw [ends_bind]
      refine ends_mono ?_ (segmentAlloc_ends h hu C.segments 0)
      rintro done m₁ ⟨h₁, hkept⟩
      split
      · exact ends_mono (fun q m₂ h₂ => ⟨h₂.quiet, hkept.trans h₂.kept, h₂.queue, h₂.free⟩)
          (ih m₁ h₁)
      · trivial

theorem mallocGeneric_ends (h : Quiet m) (hu : u ≠ 0) {qs : List Nat}
    (hqs : ∀ q ∈ qs, q ∈ (m.blocks.tls u).pages itemQueue) :
    (mallocGeneric C u itemQueue qs).ends (fun q m' => Ready u q m m') m := by
  rw [mallocGeneric, ends_bind, ends_write, ends_bind]
  have h₀ : Quiet { m with redo := update m.redo u fun _ => ⟨none, 0, 0, 0, 0⟩ } :=
    ⟨h.inv, h.places, h.low, h.queue⟩
  refine ends_mono ?_ (findFreeEx_ends h₀ qs hqs)
  rintro r m₁ ⟨rfl, hr⟩
  have hkept : Kept m { m with redo := update m.redo u fun _ => ⟨none, 0, 0, 0, 0⟩ } :=
    ⟨fun _ => .rfl, fun _ _ => rfl, fun _ _ _ _ => rfl⟩
  split
  · next q =>
    exact ⟨h₀, hkept, hqs q (hr q rfl).1, (hr q rfl).2⟩
  · exact ends_mono (fun q m₂ h₂ => ⟨h₂.quiet, hkept.trans h₂.kept, h₂.queue, h₂.free⟩)
      (pageFresh_ends hu _ _ h₀)

theorem findPage_ends (h : Quiet m) (hu : u ≠ 0) :
    (findPage C u itemQueue).ends (fun q m' => Ready u q m m') m := by
  rw [findPage, ends_bind, ends_read]
  split
  · exact mallocGeneric_ends h hu nofun
  · next q rest hq =>
    rw [ends_bind, ends_read]
    split
    · next hfree => exact ⟨h, .refl, hq ▸ .head _, hfree⟩
    · exact mallocGeneric_ends h hu fun q' hq' => hq ▸ hq'

theorem Quiet.take (h : Quiet m) (hq : q ∈ (m.blocks.tls u).pages itemQueue)
    (hfree : (m.blocks.page q).free ≠ 0) :
    Quiet (m.take u q) ∧ m.blocks.place (m.blocks.page q).free = .free ∧
      ∀ b, (m.take u q).IsItem b ↔ m.IsItem b ∨ b = (m.blocks.page q).free := by
  obtain ⟨hpage, hplace⟩ := ((h.inv.queued u _ q hq).2.2.free.pop hfree).1
  have hpop : CxlAlloc.Move u m.blocks (m.blocks.popFree u q) := .pop hq hfree
  have hheld : (m.blocks.popFree u q).place (m.blocks.page q).free = .held u :=
    CxlAlloc.setPlace_self
  have hout : CxlAlloc.Move u (m.blocks.popFree u q)
      ((m.blocks.popFree u q).setPlace (m.blocks.page q).free (.out false)) :=
    .handOut hheld (hpage.symm ▸ hq) (by decide)
  have hother : ∀ b, b ≠ (m.blocks.page q).free →
      (m.take u q).blocks.place b = m.blocks.place b := by
    intro b hb
    exact (CxlAlloc.setPlace_ne hb).trans (CxlAlloc.setPlace_ne hb)
  have hself : (m.take u q).IsItem (m.blocks.page q).free := CxlAlloc.setPlace_self
  refine ⟨⟨hout.inv (hpop.inv h.inv), fun b => ?_, h.low, h.queue⟩, hplace, fun b => ?_⟩
  · by_cases hb : b = (m.blocks.page q).free
    · rw [hb]
      exact .inr (.inr hself)
    · rw [Mem.IsItem, hother b hb]
      exact h.places b
  · by_cases hb : b = (m.blocks.page q).free
    · rw [hb]
      exact iff_of_true hself (.inr rfl)
    · rw [Mem.IsItem, hother b hb]
      exact ⟨.inl, fun hor => hor.resolve_right hb⟩

/-! ## Chains -/

def Mem.keyOf (m : Mem) (b : Nat) : Nat := m.word (b + sizeofCXLObj)

def Mem.valueOf (m : Mem) (b : Nat) : Nat := m.word (b + sizeofCXLObj + 8)

def Mem.nextOf (m : Mem) (b : Nat) : Nat := m.word (b + sizeofCXLObj + 16)

def hash (key : Nat) : Nat := key &&& (2 ^ 17 - 1)

/-- The items of a chain. -/
def Mem.InChain (m : Mem) (table key b : Nat) : Prop :=
  m.IsItem b ∧ m.keyOf b >>> 56 = table ∧ hash (m.keyOf b) = hash key

theorem hash_lt (key : Nat) : hash key < 2 ^ 17 := by
  rw [hash, Nat.and_two_pow_sub_one_eq_mod]
  exact Nat.mod_lt _ (by decide)

theorem entryAddr_eq (table key : Nat) :
    entryAddr table key = 2 ^ 26 + table * 2 ^ 20 + 8 * hash key := rfl

theorem entryAddr_bounds {table : Nat} (h : table < 64) (key : Nat) :
    hashTableStart ≤ entryAddr table key ∧ entryAddr table key < segmentsAreaStart := by
  have := hash_lt key
  rw [entryAddr_eq]
  simp only [hashTableStart, segmentsAreaStart]
  omega

variable {key : Nat}

theorem entryAddr_inj {table table' key' : Nat} (h : entryAddr table key = entryAddr table' key') :
    table = table' ∧ hash key = hash key' := by
  have := hash_lt key
  have := hash_lt key'
  rw [entryAddr_eq, entryAddr_eq] at h
  omega

/-- What the loop over the chain `l` from `entry` comes to. -/
def Walked (m : Mem) (key entry : Nat) (l : List Nat) : Walk → Prop
  | .found data => ∃ b ∈ l, m.keyOf b = key ∧ data = b + sizeofCXLObj
  | .missing e => (∀ b ∈ l, m.keyOf b ≠ key) ∧
      (l = [] ∧ e = entry ∨ ∃ l' b, l = l' ++ [b] ∧ e = b + sizeofCXLObj + 16)

theorem walk_runs : ∀ {l : List Nat} {entry : Nat} {n : Nat},
    Links m.nextOf 0 (m.word entry) l → l.length < n →
      (walk key n entry).runs (fun w m' => m' = m ∧ Walked m key entry l w) m := by
  intro l
  induction l with
  | nil =>
    intro entry n hl hn
    obtain ⟨n, rfl⟩ := Nat.exists_eq_succ_of_ne_zero (Nat.ne_of_gt hn)
    rw [walk, runs_bind, load, runs_read, if_pos (show m.word entry = 0 from hl)]
    exact ⟨rfl, nofun, .inl ⟨rfl, rfl⟩⟩
  | cons b l ih =>
    intro entry n hl hn
    obtain ⟨n, rfl⟩ := Nat.exists_eq_succ_of_ne_zero (Nat.ne_of_gt (Nat.zero_lt_of_lt hn))
    obtain ⟨hb, hne, hl⟩ := hl
    rw [walk, runs_bind, load, runs_read, if_neg (by rw [hb]; exact hne), hb]
    rw [runs_bind, load, runs_read]
    split
    · next hkey => exact ⟨rfl, b, .head _, hkey, rfl⟩
    · next hkey =>
      refine runs_mono ?_ (ih hl (by simpa using hn))
      rintro w m' ⟨rfl, hw⟩
      refine ⟨rfl, ?_⟩
      cases w with
      | found data =>
        obtain ⟨c, hc, hrest⟩ := hw
        exact ⟨c, .tail _ hc, hrest⟩
      | missing e =>
        obtain ⟨hnot, hend⟩ := hw
        refine ⟨fun c hc => ?_, .inr ?_⟩
        · obtain rfl | hc := List.mem_cons.mp hc
          · exact hkey
          · exact hnot c hc
        · obtain ⟨rfl, rfl⟩ | ⟨l', c, rfl, rfl⟩ := hend
          · exact ⟨[], b, rfl, rfl⟩
          · exact ⟨b :: l', c, rfl, rfl⟩

/-! ## The map -/

/-- The tables hold the map `abs`, with at most `n` items. -/
structure Holds (m : Mem) (abs : Nat → Option Nat) (n : Nat) : Prop where
  quiet : Quiet m
  chain : ∀ table, table < 64 → ∀ key,
    Linked m.nextOf 0 (m.word (entryAddr table key)) (m.InChain table key)
  table : ∀ b, m.IsItem b → m.keyOf b >>> 56 < 64
  once : ∀ b c, m.IsItem b → m.IsItem c → m.keyOf b = m.keyOf c → b = c
  rep : ∀ key v, abs key = some v ↔ ∃ b, m.IsItem b ∧ m.keyOf b = key ∧ m.valueOf b = v
  size : ∃ items : List Nat, items.length ≤ n ∧ ∀ b, m.IsItem b → b ∈ items

namespace Holds

variable {abs : Nat → Option Nat} {n key value : Nat}

theorem more (h : Holds m abs n) : Holds m abs (n + 1) :=
  ⟨h.quiet, h.chain, h.table, h.once, h.rep,
    h.size.imp fun _ hi => ⟨Nat.le_succ_of_le hi.1, hi.2⟩⟩

/-- The loop of `put` and `get` finds the item with the key, if there is one. -/
theorem walk_runs (h : Holds m abs n) (key : Nat) {table : Nat} (ht : table < 64)
    (hn : n < C.retries) :
    (walk key C.retries (entryAddr table key)).runs (fun w m' => m' = m ∧
      ∃ l, Links m.nextOf 0 (m.word (entryAddr table key)) l ∧ l.Nodup ∧
        (∀ b, b ∈ l ↔ m.InChain table key b) ∧ Walked m key (entryAddr table key) l w) m := by
  obtain ⟨l, hl, hnd, hmem⟩ := h.chain table ht key
  obtain ⟨items, hlen, hitems⟩ := h.size
  have hle : l.length ≤ items.length :=
    (List.subperm_of_subset hnd fun b hb => hitems b ((hmem b).mp hb).1).length_le
  refine runs_mono ?_ (CxlHash.walk_runs hl (show l.length < C.retries by omega))
  rintro w m' ⟨rfl, hw⟩
  exact ⟨rfl, l, hl, hnd, hmem, hw⟩

theorem get_runs (h : Holds m abs n) (hn : n < C.retries) (ht : key >>> 56 < 64) :
    (get C key).runs (fun r m' => m' = m ∧ r = abs key) m := by
  rw [get, runs_bind]
  refine runs_mono ?_ (h.walk_runs key ht hn)
  rintro w m' ⟨rfl, l, _, _, hmem, hw⟩
  cases w with
  | found data =>
    obtain ⟨b, hb, hkey, rfl⟩ := hw
    refine ⟨rfl, ?_⟩
    exact ((h.rep key _).mpr ⟨b, ((hmem b).mp hb).1, hkey, rfl⟩).symm
  | missing e =>
    refine ⟨rfl, ?_⟩
    cases habs : abs key with
    | none => rfl
    | some v =>
      obtain ⟨b, hb, hkey, _⟩ := (h.rep key v).mp habs
      exact absurd hkey (hw.1 b ((hmem b).mpr ⟨hb, by rw [hkey], by rw [hkey]⟩))

end Holds

/-! ## Stores -/

theorem Quiet.item_word_ne (h : Quiet m) (hb : m.IsItem b) (hc : m.IsItem c) {x y : Nat}
    (hx : x < 48) (hy : y < 48) (hne : b ≠ c ∨ x ≠ y) : b + x ≠ c + y := by
  by_cases hbc : b = c
  · have := hne.resolve_left (not_not.mpr hbc)
    omega
  · have := h.apart (IsItem.placed hb) (IsItem.placed hc) hbc
    omega

theorem Quiet.entry_ne (h : Quiet m) (hb : m.IsItem b) {table : Nat} (ht : table < 64)
    (key x : Nat) : entryAddr table key ≠ b + x := by
  have hlt := (entryAddr_bounds ht key).2
  have hle := h.area_le (IsItem.placed hb)
  omega

variable {value : Nat} {abs : Nat → Option Nat}

theorem Holds.overwrite (h : Holds m abs n) (hb : m.IsItem b) (hkey : m.keyOf b = key) :
    Holds (m.setWord (b + sizeofCXLObj + 8) value) (update abs key (some value)) n := by
  have hother : ∀ c x, m.IsItem c → x < 48 → (c ≠ b ∨ x ≠ 32) →
      (m.setWord (b + sizeofCXLObj + 8) value).word (c + x) = m.word (c + x) := by
    intro c x hc hx hne
    exact update_of_ne (h.quiet.item_word_ne hc hb hx (by decide) hne) ..
  have hkeys : ∀ c, m.IsItem c → (m.setWord (b + sizeofCXLObj + 8) value).keyOf c = m.keyOf c :=
    fun c hc => hother c 24 hc (by decide) (.inr (by decide))
  have hnext : ∀ c, m.IsItem c → (m.setWord (b + sizeofCXLObj + 8) value).nextOf c = m.nextOf c :=
    fun c hc => hother c 40 hc (by decide) (.inr (by decide))
  have hvalue : ∀ c, m.IsItem c → (m.setWord (b + sizeofCXLObj + 8) value).valueOf c =
      if c = b then value else m.valueOf c := by
    intro c hc
    split
    · next hcb =>
      rw [hcb]
      exact update_self ..
    · next hcb => exact hother c 32 hc (by decide) (.inl hcb)
  refine ⟨⟨h.quiet.inv, h.quiet.places, h.quiet.low, h.quiet.queue⟩, fun table ht k => ?_,
    fun c hc => ?_, fun c d hc hd heq => ?_, fun k v => ?_, h.size⟩
  · have hhead : (m.setWord (b + sizeofCXLObj + 8) value).word (entryAddr table k) =
        m.word (entryAddr table k) :=
      update_of_ne (h.quiet.entry_ne hb ht k 32) ..
    rw [hhead]
    refine (h.chain table ht k).congr (fun c hc => hnext c hc.1) fun c => ?_
    refine and_congr_right fun hc => ?_
    rw [hkeys c hc]
  · rw [hkeys c hc]
    exact h.table c hc
  · rw [hkeys c hc, hkeys d hd] at heq
    exact h.once c d hc hd heq
  · by_cases hk : k = key
    · subst hk
      rw [update_self]
      constructor
      · intro hv
        exact ⟨b, hb, (hkeys b hb).trans hkey, by rw [hvalue b hb, if_pos rfl, Option.some.inj hv]⟩
      · intro ⟨c, hc, hck, hcv⟩
        rw [hkeys c hc] at hck
        rw [hvalue c hc, if_pos (h.once c b hc hb (hck.trans hkey.symm))] at hcv
        rw [hcv]
    · rw [update_of_ne hk, h.rep]
      refine exists_congr fun c => and_congr_right fun hc => ?_
      rw [hkeys c hc]
      refine and_congr_right fun hck => ?_
      have hcb : c ≠ b := by
        intro hcb
        rw [hcb, hkey] at hck
        exact hk hck.symm
      rw [hvalue c hc, if_neg hcb]

/-! ## A new item -/

/-- The block `b` has become an item, and the reference at `e` refers to it. -/
structure Added (m m' : Mem) (b key value e : Nat) : Prop where
  quiet : Quiet m'
  fresh : m.blocks.place b ≠ .out false
  items : ∀ c, m'.IsItem c ↔ m.IsItem c ∨ c = b
  cell : m'.word e = b
  key : m'.keyOf b = key
  value : m'.valueOf b = value
  next : m'.nextOf b = 0
  tables : ∀ a, a < segmentsAreaStart → a ≠ e → m'.word a = m.word a
  data : ∀ c x, m.IsItem c → x < 48 → c + x ≠ e → m'.word (c + x) = m.word (c + x)

theorem fill_runs : (fill u b key value).runs (fun _ m' =>
    m'.blocks = m.blocks ∧ m'.keyOf b = key ∧ m'.valueOf b = value ∧ m'.nextOf b = 0 ∧
      ∀ a, (∀ x, x < 48 → a ≠ b + x) → m'.word a = m.word a) m := by
  refine ⟨rfl, ?_, ?_, update_self .., fun a ha => ?_⟩
  · simp [Mem.keyOf, Mem.setWord]
  · simp [Mem.valueOf, Mem.setWord]
  · have := ha 8 (by decide)
    have := ha 16 (by decide)
    have := ha 24 (by decide)
    have := ha 32 (by decide)
    have := ha 40 (by decide)
    simp [Mem.setWord, sizeofCXLObj, Nat.add_assoc, *]

theorem linkReference_runs {ref refed : Nat} : (linkReference u ref refed (n + 1)).runs
    (fun _ m' => m'.blocks = m.blocks ∧ m'.word ref = refed ∧
      ∀ a, a ≠ ref → a ≠ refed + 8 → m'.word a = m.word a) m := by
  have hstored : ∀ (m₁ : Mem) (v : Nat), m₁.blocks = m.blocks → m₁.word = m.word →
      ((store ref refed >>= fun _ => Prog.write () fun m => { m with
        era := update m.era (CxlRefInfo.eraIdx u u) (m.era (CxlRefInfo.eraIdx u u) + 1) } :
          Code Unit)).runs (fun _ m' => m'.blocks = m.blocks ∧ m'.word ref = refed ∧
            ∀ a, a ≠ ref → a ≠ refed + 8 → m'.word a = m.word a) (m₁.setWord (refed + 8) v) := by
    intro m₁ v hblocks hword
    refine ⟨hblocks, update_self .., fun a ha ha' => ?_⟩
    simp only [Mem.setWord, update_of_ne ha, update_of_ne ha', hword]
  rw [linkReference]
  simp only [load, cas, runs_bind, runs_read]
  split
  all_goals
    simp only [runs_bind, runs_write, runs_rmw]
    rw [if_pos (beq_self_eq_true _), if_pos trivial]
    exact hstored _ _ rfl rfl

/-- The block found by the allocation is filled and linked. -/
theorem Ready.added_runs {e : Nat} (h : Ready u q m m') (hr : C.retries = n + 1)
    (he : ∀ x, x < 48 → e ≠ (m'.blocks.page q).free + x) :
    ((do
      let b ← rmw () (Mem.take u q) fun m => (m.blocks.page q).free
      fill u b key value
      linkReference u e b C.retries : Code Unit)).runs
      (fun _ m'' => Added m m'' (m'.blocks.page q).free key value e) m' := by
  obtain ⟨hquiet, hplace, hitems⟩ := h.quiet.take h.queue h.free
  rw [runs_bind, runs_rmw, runs_bind]
  generalize (m'.blocks.page q).free = b at he hplace hitems
  refine runs_mono ?_ fill_runs
  rintro _ m₂ ⟨hblocks₂, hkey, hvalue, hnext, hword₂⟩
  rw [hr]
  refine runs_mono ?_ linkReference_runs
  rintro _ m₃ ⟨hblocks₃, hcell, hword₃⟩
  have hblocks : m₃.blocks = (m'.take u q).blocks := hblocks₃.trans hblocks₂
  have hplaced : m'.blocks.place b ≠ .none := by
    rw [hplace]
    nofun
  have hnot : ¬ m'.IsItem b := by
    rw [Mem.IsItem, hplace]
    nofun
  -- a word outside of the block keeps its value
  have hword : ∀ a, (∀ x, x < 48 → a ≠ b + x) → a ≠ e → m₃.word a = m'.word a := by
    intro a ha hae
    rw [hword₃ a hae (ha 8 (by decide)), hword₂ a ha]
    rfl
  have hinner : ∀ x, 24 ≤ x → x < 48 → m₃.word (b + x) = m₂.word (b + x) :=
    fun x hx hx' => hword₃ _ (he x hx').symm (by omega)
  refine ⟨⟨?_, fun c => ?_, fun k hk => ?_, fun t i q' hq' => ?_⟩, fun hitem => ?_, fun c => ?_, hcell,
    (hinner 24 (by decide) (by decide)).trans hkey, (hinner 32 (by decide) (by decide)).trans hvalue,
    (hinner 40 (by decide) (by decide)).trans hnext, fun a ha hae => ?_, fun c x hc hx hne => ?_⟩
  · rw [hblocks]
    exact hquiet.inv
  · rw [Mem.IsItem, hblocks]
    exact hquiet.places c
  · rw [hblocks]
    exact hquiet.low k hk
  · rw [hblocks] at hq'
    exact hquiet.queue t i q' hq'
  · exact hnot ((h.kept.items b).mpr hitem)
  · rw [Mem.IsItem, hblocks, ← h.kept.items c]
    exact hitems c
  · rw [hword a (fun x _ => ?_) hae]
    · exact h.kept.tables a ha
    · have := h.quiet.area_le hplaced
      omega
  · have hc' : m'.IsItem c := (h.kept.items c).mpr hc
    rw [hword (c + x) (fun y hy => ?_) hne]
    · exact h.kept.data c x hc hx
    · have hcb : c ≠ b := by
        intro hcb
        rw [hcb] at hc'
        exact hnot hc'
      have := h.quiet.apart (IsItem.placed hc') hplaced hcb
      omega

/-- The chain of a key, and its last reference. -/
structure Chain (m : Mem) (table key : Nat) (l : List Nat) (e : Nat) : Prop where
  lt : table < 64
  links : Links m.nextOf 0 (m.word (entryAddr table key)) l
  nodup : l.Nodup
  mem : ∀ b, b ∈ l ↔ m.InChain table key b
  last : l = [] ∧ e = entryAddr table key ∨ ∃ l' c, l = l' ++ [c] ∧ e = c + sizeofCXLObj + 16

section

variable {table key value e b c : Nat} {l : List Nat}

theorem Chain.cell (h : Chain m table key l e) :
    e = entryAddr table key ∨ ∃ d, m.InChain table key d ∧ e = d + 40 := by
  obtain ⟨_, rfl⟩ | ⟨l', d, rfl, rfl⟩ := h.last
  · exact .inl rfl
  · exact .inr ⟨d, (h.mem d).mp (by simp), rfl⟩

theorem Chain.ne_data (h : Chain m table key l e) (hm : Quiet m) (hc : m.IsItem c) {x : Nat}
    (hx : x < 40) : c + x ≠ e := by
  obtain rfl | ⟨d, hd, rfl⟩ := h.cell
  · exact (hm.entry_ne hc h.lt key x).symm
  · exact hm.item_word_ne hc hd.1 (by omega) (by decide) (.inr (Nat.ne_of_lt hx))

theorem Chain.ne_other (h : Chain m table key l e) (hm : Quiet m) {table' k : Nat}
    (ht : table' < 64) (hne : ¬ (table' = table ∧ hash k = hash key)) :
    entryAddr table' k ≠ e ∧ ∀ c, m.InChain table' k c → c + 40 ≠ e := by
  obtain rfl | ⟨d, hd, rfl⟩ := h.cell
  · exact ⟨fun heq => hne (entryAddr_inj heq), fun c hc => (hm.entry_ne hc.1 h.lt key 40).symm⟩
  · refine ⟨hm.entry_ne hd.1 ht k 40, fun c hc => ?_⟩
    refine hm.item_word_ne hc.1 hd.1 (by decide) (by decide) (.inl ?_)
    intro hcd
    rw [hcd] at hc
    exact hne ⟨hc.2.1.symm.trans hd.2.1, hc.2.2.symm.trans hd.2.2⟩

theorem Ready.last_ne (h : Ready u q m m') (hch : Chain m table key l e) {x : Nat} (hx : x < 48) :
    e ≠ (m'.blocks.page q).free + x := by
  obtain ⟨_, hplace, _⟩ := h.quiet.take h.queue h.free
  generalize (m'.blocks.page q).free = b at hplace
  have hplaced : m'.blocks.place b ≠ .none := by
    rw [hplace]
    nofun
  obtain rfl | ⟨d, hd, rfl⟩ := hch.cell
  · have hlt := (entryAddr_bounds hch.lt key).2
    have hle := h.quiet.area_le hplaced
    omega
  · have hd' : m'.blocks.place d = .out false := (h.kept.items d).mpr hd.1
    have hdb : d ≠ b := by
      intro hdb
      rw [hdb, hplace] at hd'
      cases hd'
    have := h.quiet.apart (IsItem.placed hd') hplaced hdb
    omega

namespace Added

theorem isItem (h : Added m m' b key value e) : m'.IsItem b := (h.items b).mpr (.inr rfl)

theorem ne (h : Added m m' b key value e) (hc : m.IsItem c) : c ≠ b := by
  intro hcb
  rw [hcb] at hc
  exact h.fresh hc

theorem keyOf_eq (h : Added m m' b key value e) (hm : Quiet m) (hch : Chain m table key l e)
    (hc : m.IsItem c) : m'.keyOf c = m.keyOf c :=
  h.data c 24 hc (by decide) (hch.ne_data hm hc (by decide))

theorem valueOf_eq (h : Added m m' b key value e) (hm : Quiet m) (hch : Chain m table key l e)
    (hc : m.IsItem c) : m'.valueOf c = m.valueOf c :=
  h.data c 32 hc (by decide) (hch.ne_data hm hc (by decide))

theorem inChain_iff (h : Added m m' b key value e) (hm : Quiet m) (hch : Chain m table key l e)
    {table' k : Nat} : m'.InChain table' k c ↔
      m.InChain table' k c ∨ c = b ∧ key >>> 56 = table' ∧ hash key = hash k := by
  rw [Mem.InChain, Mem.InChain, h.items]
  constructor
  · rintro ⟨hc | rfl, hrest⟩
    · rw [h.keyOf_eq hm hch hc] at hrest
      exact .inl ⟨hc, hrest⟩
    · rw [h.key] at hrest
      exact .inr ⟨rfl, hrest⟩
  · rintro (⟨hc, hrest⟩ | ⟨rfl, hrest⟩)
    · rw [h.keyOf_eq hm hch hc]
      exact ⟨.inl hc, hrest⟩
    · rw [h.key]
      exact ⟨.inr rfl, hrest⟩

theorem links (h : Added m m' b key value e) (hm : Quiet m) (hch : Chain m table key l e) :
    Links m'.nextOf 0 (m'.word (entryAddr table key)) (l ++ [b]) := by
  have hb : b ≠ 0 := by
    have := h.quiet.area_le (IsItem.placed h.isItem)
    intro hb
    rw [hb] at this
    exact absurd this (by decide)
  have hitem : ∀ c ∈ l, m.IsItem c := fun c hc => ((hch.mem c).mp hc).1
  have hl := hch.links
  obtain ⟨rfl, rfl⟩ | ⟨l', c, rfl, rfl⟩ := hch.last
  · exact ⟨h.cell, hb, h.next⟩
  · have hc : m.IsItem c := hitem c (by simp)
    rw [h.tables _ (entryAddr_bounds hch.lt key).2 (hm.entry_ne hc hch.lt key 40),
      List.append_assoc]
    refine Links.insert (b := c) hb h.cell ?_ hl hch.nodup fun d hd hdc => ?_
    · rw [h.next]
      exact hl.after.symm
    · refine h.data d 40 (hitem d hd) (by decide) ?_
      exact hm.item_word_ne (x := 40) (y := 40) (hitem d hd) hc (by decide) (by decide) (.inl hdc)

theorem linked (h : Added m m' b key value e) (hm : Quiet m) (hch : Chain m table key l e)
    (hkt : key >>> 56 = table) {table' k : Nat} (ht : table' < 64)
    (hold : Linked m.nextOf 0 (m.word (entryAddr table' k)) (m.InChain table' k)) :
    Linked m'.nextOf 0 (m'.word (entryAddr table' k)) (m'.InChain table' k) := by
  by_cases hsame : table' = table ∧ hash k = hash key
  · obtain ⟨rfl, hk⟩ := hsame
    have hentry : entryAddr table' k = entryAddr table' key := by
      rw [entryAddr_eq, entryAddr_eq, hk]
    rw [hentry]
    refine ⟨l ++ [b], h.links hm hch, ?_, fun c => ?_⟩
    · refine List.nodup_append.mpr ⟨hch.nodup, List.nodup_singleton b, fun c hc d hd => ?_⟩
      rw [List.mem_singleton.mp hd]
      exact h.ne ((hch.mem c).mp hc).1
    · rw [List.mem_append, List.mem_singleton, hch.mem, h.inChain_iff hm hch, Mem.InChain,
        Mem.InChain, hk]
      simp [hkt]
  · obtain ⟨hhead, hnext⟩ := hch.ne_other hm ht hsame
    rw [h.tables _ (entryAddr_bounds ht k).2 hhead]
    refine hold.congr (fun c hc => h.data c 40 hc.1 (by decide) (hnext c hc)) fun c => ?_
    rw [h.inChain_iff hm hch, hkt]
    constructor
    · exact .inl
    · rintro (hc | ⟨_, ht, hk⟩)
      · exact hc
      · exact absurd ⟨ht.symm, hk.symm⟩ hsame

end Added

theorem Holds.add {abs : Nat → Option Nat} {n : Nat} (h : Holds m abs n)
    (hch : Chain m table key l e) (hkt : key >>> 56 = table) (hnot : ∀ b ∈ l, m.keyOf b ≠ key)
    (ha : Added m m' b key value e) :
    Holds m' (update abs key (some value)) (n + 1) := by
  have hkeys : ∀ c, m.IsItem c → m'.keyOf c = m.keyOf c := fun c => ha.keyOf_eq h.quiet hch
  have hvalues : ∀ c, m.IsItem c → m'.valueOf c = m.valueOf c := fun c => ha.valueOf_eq h.quiet hch
  have habsent : ∀ c, m.IsItem c → m.keyOf c ≠ key := by
    intro c hc hck
    exact hnot c ((hch.mem c).mpr ⟨hc, by rw [hck, hkt], by rw [hck]⟩) hck
  refine ⟨ha.quiet, fun table' ht k => ha.linked h.quiet hch hkt ht (h.chain table' ht k),
    fun c hc => ?_, fun c d hc hd heq => ?_, fun k v => ?_, ?_⟩
  · obtain hc | rfl := (ha.items c).mp hc
    · rw [hkeys c hc]
      exact h.table c hc
    · rw [ha.key, hkt]
      exact hch.lt
  · obtain hc | rfl := (ha.items c).mp hc
    · obtain hd | rfl := (ha.items d).mp hd
      · rw [hkeys c hc, hkeys d hd] at heq
        exact h.once c d hc hd heq
      · rw [hkeys c hc, ha.key] at heq
        exact absurd heq (habsent c hc)
    · obtain hd | rfl := (ha.items d).mp hd
      · rw [hkeys d hd, ha.key] at heq
        exact absurd heq.symm (habsent d hd)
      · rfl
  · by_cases hk : k = key
    · subst hk
      rw [update_self]
      constructor
      · intro hv
        exact ⟨b, ha.isItem, ha.key, ha.value.trans (Option.some.inj hv)⟩
      · intro ⟨c, hc, hck, hcv⟩
        obtain hc | rfl := (ha.items c).mp hc
        · rw [hkeys c hc] at hck
          exact absurd hck (habsent c hc)
        · rw [← hcv, ha.value]
    · rw [update_of_ne hk, h.rep]
      constructor
      · intro ⟨c, hc, hck, hcv⟩
        exact ⟨c, (ha.items c).mpr (.inl hc), (hkeys c hc).trans hck, (hvalues c hc).trans hcv⟩
      · intro ⟨c, hc, hck, hcv⟩
        obtain hc | rfl := (ha.items c).mp hc
        · exact ⟨c, hc, (hkeys c hc).symm.trans hck, (hvalues c hc).symm.trans hcv⟩
        · exact absurd (hck.symm.trans ha.key) hk
  · obtain ⟨items, hlen, hall⟩ := h.size
    refine ⟨b :: items, by simpa using hlen, fun c hc => ?_⟩
    obtain hc | rfl := (ha.items c).mp hc
    · exact .tail _ (hall c hc)
    · exact .head _

end

/-! ## Calls -/

/-- The allocation of a `put`, if it comes to one, succeeds. -/
def allocates (C : Config) (u key : Nat) (m : Mem) : Bool :=
  match (walk key C.retries (entryAddr (u - 1) key)).exec m with
  | some (.missing _, m') => ((findPage C u itemQueue).exec m').isSome
  | _ => true

theorem Holds.put_runs (h : Holds m abs n) (hn : n < C.retries) (hu : 1 ≤ u) (hu' : u ≤ 64)
    (hkt : key >>> 56 = u - 1) (ha : allocates C u key m = true) : (put C u key value).runs
      (fun _ m' => Holds m' (update abs key (some value)) (n + 1)) m := by
  have ht : u - 1 < 64 := by omega
  obtain ⟨w, m', hx, rfl, l, hl, hnd, hmem, hw⟩ :=
    runs_iff_exec.mp (h.walk_runs key ht hn)
  rw [put, runs_bind, runs_iff_exec]
  refine ⟨w, m', hx, ?_⟩
  cases w with
  | found data =>
    obtain ⟨b, hb, hkey, rfl⟩ := hw
    exact (h.overwrite ((hmem b).mp hb).1 hkey).more
  | missing e =>
    obtain ⟨hnot, hlast⟩ := hw
    have hch : Chain m' (u - 1) key l e := ⟨ht, hl, hnd, hmem, hlast⟩
    simp only [allocates, hx] at ha
    obtain ⟨x, hx⟩ := Option.isSome_iff_exists.mp ha
    have hfound : (findPage C u itemQueue).runs (fun _ _ => True) m' :=
      runs_iff_exec.mpr ⟨x.1, x.2, hx, trivial⟩
    rw [runs_bind]
    refine runs_mono ?_
      (runs_and_ends hfound (findPage_ends h.quiet (Nat.ne_of_gt hu)))
    intro q m₁ ⟨_, hready⟩
    have hr : C.retries = C.retries - 1 + 1 := by omega
    exact runs_mono (fun _ m₂ hadd => h.add hch hkt hnot hadd)
      (hready.added_runs hr fun x hx => hready.last_ne hch hx)

theorem Init.holds (h : Init m) : Holds m (fun _ => none) 0 := by
  have hitem : ∀ b, ¬ m.IsItem b := by
    intro b
    rw [Mem.IsItem, h.place b]
    nofun
  have hquiet : Quiet m := by
    refine ⟨CxlAlloc.inv_of_zero h.page h.segment h.sas h.freePage h.pages h.place,
      fun b => .inl (h.place b), fun k _ => ?_, fun t i q hq => ?_⟩
    · rw [h.sas]
    · rw [h.pages] at hq
      cases hq
  refine ⟨hquiet, fun table ht key => ?_, fun b hb => absurd hb (hitem b),
    fun b c hb => absurd hb (hitem b), fun key v => ?_, [], Nat.le_refl _, fun b hb => absurd hb (hitem b)⟩
  · obtain ⟨hle, hlt⟩ := entryAddr_bounds ht key
    rw [h.tables _ hle hlt]
    exact .empty fun b hb => hitem b hb.1
  · constructor
    · intro hv
      cases hv
    · intro ⟨b, hb, _⟩
      exact absurd hb (hitem b)

/-- A thread puts keys of its own table, and the allocations succeed. A key that is
looked up belongs to one of the tables. -/
def Legal (C : Config) (u : Nat) (op : Op) (m : Mem) : Prop :=
  match op with
  | .put key _ => 1 ≤ u ∧ u ≤ 64 ∧ key >>> 56 = u - 1 ∧ allocates C u key m = true
  | .get key => key >>> 56 < 64

instance (C : Config) (u : Nat) : ∀ op m, Decidable (Legal C u op m)
  | .put key _, m => inferInstanceAs
      (Decidable (1 ≤ u ∧ u ≤ 64 ∧ key >>> 56 = u - 1 ∧ allocates C u key m = true))
  | .get key, _ => inferInstanceAs (Decidable (key >>> 56 < 64))

def mapStep (abs : Nat → Option Nat) : Op → (Nat → Option Nat)
  | .put key value => update abs key (some value)
  | .get _ => abs

/-- A `get` returns what the map has for its key. -/
def Answers (abs : Nat → Option Nat) : Op → Option Nat → Prop
  | .put _ _, _ => True
  | .get key, r => r = abs key

def AnswersAll : List (Nat × Op) → List (Option Nat) → (Nat → Option Nat) → Prop
  | [], [], _ => True
  | (_, op) :: ops, r :: rs, abs => Answers abs op r ∧ AnswersAll ops rs (mapStep abs op)
  | _, _, _ => False

theorem Holds.exec_answers (h : Holds m abs n) (hn : n < C.retries) {op : Op} (hl : Legal C u op m) :
    ∃ r m', (obj C).exec u op m = some (r, m') ∧ Holds m' (mapStep abs op) (n + 1) ∧
      Answers abs op r := by
  have hruns : ((obj C).code u op).runs
      (fun r m' => Holds m' (mapStep abs op) (n + 1) ∧ Answers abs op r) m := by
    cases op with
    | put key value =>
      obtain ⟨hu, hu', hkt, ha⟩ := hl
      simp only [obj]
      rw [runs_bind]
      exact runs_mono (fun _ m' hput => ⟨hput, trivial⟩) (h.put_runs hn hu hu' hkt ha)
    | get key =>
      refine runs_mono ?_ (h.get_runs hn hl)
      rintro r m' ⟨rfl, hr⟩
      exact ⟨h.more, hr⟩
  exact Obj.exec_of_runs rfl hruns

theorem Holds.execAll_answers : ∀ {ops : List (Nat × Op)} {m : Mem} {abs : Nat → Option Nat} {n : Nat},
    Holds m abs n → n + ops.length ≤ C.retries → (obj C).Along (Legal C) ops m →
      ∃ rs m', (obj C).execAll ops m = some (rs, m') ∧ AnswersAll ops rs abs := by
  intro ops
  induction ops with
  | nil => exact fun {m _ _} _ _ _ => ⟨[], m, rfl, trivial⟩
  | cons op ops ih =>
    intro m abs n h hn hal
    rw [List.length_cons] at hn
    obtain ⟨r, m₁, hx, hholds, hans⟩ := h.exec_answers (by omega) hal.1
    obtain ⟨rs, m', hrs, hall⟩ := ih hholds (by omega) (hal.2 (r, m₁) hx)
    exact ⟨r :: rs, m', Obj.execAll_cons hx hrs, hans, hall⟩

/-- Puts and gets by any number of threads, one after the other. -/
theorem put_get_map (hinit : Init m) (ops : List (Nat × Op)) (hr : ops.length ≤ C.retries)
    (hlegal : (obj C).Along (Legal C) ops m) :
    ∃ rs m', (obj C).execAll ops m = some (rs, m') ∧ AnswersAll ops rs fun _ => none :=
  hinit.holds.execAll_answers (by omega) hlegal

/-- Nothing is in the memory. -/
def zeroMemory : Mem where
  blocks := ⟨fun _ => 0, fun _ => .zero, fun _ => ⟨0, 0⟩, fun _ => ⟨0, .normal, 0⟩,
    fun _ => ⟨fun _ => [], []⟩, fun _ => .none⟩
  word _ := 0
  era _ := 0
  redo _ _ := ⟨none, 0, 0, 0, 0⟩

theorem zeroMemory_init : Init zeroMemory :=
  ⟨fun _ => rfl, fun _ => rfl, fun _ => rfl, fun _ => rfl, fun _ _ => rfl, fun _ => rfl, fun _ _ _ => rfl⟩

/-- Two keys with one hash, a key of another thread, a second put of a key, and a key
that nobody puts. -/
def twoThreads : List (Nat × Op) :=
  [(1, .put 5 50), (1, .put (5 + 2 ^ 17) 51), (2, .put (2 ^ 56 + 5) 52), (1, .put 5 53),
    (3, .get 5), (2, .get (5 + 2 ^ 17)), (1, .get (2 ^ 56 + 5)), (1, .get (5 + 2 ^ 18))]

theorem put_get_map_twoThreads : (obj ⟨2, 8⟩).Along (Legal ⟨2, 8⟩) twoThreads zeroMemory ∧
    ∃ rs m', (obj ⟨2, 8⟩).execAll twoThreads zeroMemory = some (rs, m') ∧
      AnswersAll twoThreads rs fun _ => none := by
  have hlegal : (obj ⟨2, 8⟩).Along (Legal ⟨2, 8⟩) twoThreads zeroMemory := by decide +kernel
  exact ⟨hlegal, put_get_map zeroMemory_init twoThreads (by decide) hlegal⟩

/-- The first block of the first page that thread 1 takes. -/
def firstItem : Nat := 2049 * pageSize

/-- A key whose top byte is 64: its table would begin where the segments do. -/
def strayKey : Nat := 64 * 2 ^ 56 + 8196

def strayPuts : List (Nat × Op) := [(1, .put 0 (firstItem + 56)), (1, .put 1 strayKey)]

/-- The value of the first item is read as the head of a chain. The word it refers to is
the value of the second item. -/
theorem get_finds_stray_key : (obj ⟨1, 5⟩).Along (Legal ⟨1, 5⟩) strayPuts zeroMemory ∧
    ((obj ⟨1, 5⟩).execAll (strayPuts ++ [(1, .get strayKey)]) zeroMemory).map Prod.fst =
      some [none, none, some 0] := by
  decide +kernel

end ShmPcc.CxlHash
