import ShmPcc.Proofs.CxlAllocInv

/-!
# Blocks of the allocator are conserved

`CxlAllocInv.lean` shows that the changes of the memory keep the invariant. Here the
steps of the threads are taken apart into those changes. `Pc.At` says what a thread
knows at each of its program counters: which blocks it has in its hands, and what
its own queues and pages look like. None of it can be disturbed by others
(`Kept`): a thread changes its own queues, its own pages and segments, the blocks in
its hands, and beyond that only pushes blocks on lists of segments and seizes blocks
that are handed out.
-/

namespace ShmPcc.CxlAlloc

open Function

variable {m m' : Mem} {u w t i q n b : Nat}

/-! ## What other threads leave alone -/

/-- What thread `w` relies on. -/
structure Kept (w : Nat) (m m' : Mem) : Prop where
  tls : m'.tls w = m.tls w
  held : ∀ b, m'.place b = .held w ↔ m.place b = .held w
  next : ∀ b, m.place b = .held w → m'.next b = m.next b
  page : ∀ i q, q ∈ (m.tls w).pages i → m'.page q = m.page q
  owned : ∀ n, w ≠ 0 → (m.sas n).threadId = w →
    (m'.sas n).threadId = w ∧ (m'.segment n).used = (m.segment n).used

theorem Kept.refl : Kept w m m := ⟨rfl, fun _ => .rfl, fun _ _ => rfl, fun _ _ _ => rfl,
  fun _ _ h => ⟨h, rfl⟩⟩

theorem Kept.trans {m'' : Mem} (h : Kept w m m') (h' : Kept w m' m'') : Kept w m m'' where
  tls := h'.tls.trans h.tls
  held b := (h'.held b).trans (h.held b)
  next b hb := (h'.next b ((h.held b).mpr hb)).trans (h.next b hb)
  page i q hq := (h'.page i q (h.tls.symm ▸ hq)).trans (h.page i q hq)
  owned n hw hn := by
    obtain ⟨h1, h2⟩ := h.owned n hw hn
    obtain ⟨h3, h4⟩ := h'.owned n hw h1
    exact ⟨h3, h4.trans h2⟩

theorem Kept.of_blocks (htls : m'.tls w = m.tls w)
    (hplace : ∀ b, m'.place b = .held w ↔ m.place b = .held w)
    (hnext : ∀ b, m.place b = .held w → m'.next b = m.next b)
    (hpage : ∀ i q, q ∈ (m.tls w).pages i → m'.page q = m.page q)
    (hsas : ∀ n, (m'.sas n).threadId = (m.sas n).threadId)
    (hseg : m'.segment = m.segment) : Kept w m m' :=
  ⟨htls, hplace, hnext, hpage, fun n _ hn => ⟨(hsas n).trans hn, by rw [hseg]⟩⟩

theorem held_setPlace {p : Place} (hold : m.place b ≠ .held w) (hnew : p ≠ .held w) (c : Nat) :
    (m.setPlace b p).place c = .held w ↔ m.place c = .held w := by
  by_cases hc : c = b
  · rw [hc, setPlace_self]
    exact iff_of_false hnew hold
  · rw [setPlace_ne hc]

theorem next_setNext {v : Nat} (hb : m.place b ≠ .held w) (c : Nat) (hc : m.place c = .held w) :
    (m.setNext b v).next c = m.next c := by
  refine update_of_ne ?_ ..
  rintro rfl
  exact hb hc

theorem held_grab (hw : w ≠ u) (c : Nat) :
    (m.grab u n).place c = .held w ↔ m.place c = .held w := by
  show (if segmentOf (pageOf c) = n ∧ m.place c = .threadFree then Place.held u else m.place c) =
    .held w ↔ _
  split
  · next hc =>
    rw [hc.2]
    refine iff_of_false (fun h => hw ?_) nofun
    cases h
    rfl
  · rfl

theorem held_collectLocal (c : Nat) :
    (m.collectLocal q).place c = .held w ↔ m.place c = .held w := by
  rw [Mem.collectLocal]
  split
  · show (if pageOf c = q ∧ m.place c = .localFree then Place.free else m.place c) = .held w ↔ _
    split
    · next hc =>
      rw [hc.2]
      simp
    · rfl
  · rfl

theorem collectLocal_page_ne {q' : Nat} (h : q' ≠ q) : (m.collectLocal q).page q' = m.page q' := by
  rw [Mem.collectLocal]
  split
  · exact setPage_ne h
  · rfl

theorem Move.kept (h : Move u m m') (hi : Inv m) (hw : w ≠ u) : Kept w m m' := by
  have hpages : ∀ {q i}, q ∈ (m.tls u).pages i → ∀ i' q', q' ∈ (m.tls w).pages i' → q' ≠ q := by
    rintro q i hq i' q' hq' rfl
    exact hw (hi.queue_unique _ _ _ _ _ hq' hq).1
  have hother : ∀ {b}, m.place b = .held u → m.place b ≠ .held w := by
    intro b hb hb'
    rw [hb] at hb'
    cases hb'
    exact hw rfl
  have hnew : Place.held u ≠ .held w := by
    intro h
    cases h
    exact hw rfl
  cases h with
  | seize h =>
    exact .of_blocks rfl (held_setPlace (by simp [h]) hnew) (fun _ _ => rfl)
      (fun _ _ _ => rfl) (fun _ => rfl) rfl
  | write h =>
    exact .of_blocks rfl (fun _ => .rfl) (next_setNext (hother h)) (fun _ _ _ => rfl)
      (fun _ => rfl) rfl
  | use h =>
    exact .of_blocks rfl (fun _ => .rfl) (next_setNext (by simp [h])) (fun _ _ _ => rfl)
      (fun _ => rfl) rfl
  | push h =>
    exact .of_blocks rfl (held_setPlace (hother h) (by simp)) (fun _ _ => rfl) (fun _ _ _ => rfl)
      setInfo_threadId rfl
  | grab _ _ =>
    exact .of_blocks rfl (held_grab hw) (fun _ _ => rfl) (fun _ _ _ => rfl)
      setInfo_threadId rfl
  | freeLocal h hq =>
    exact .of_blocks rfl (held_setPlace (hother h) (by simp)) (next_setNext (hother h))
      (fun i' q' hq' => setPage_ne (hpages hq i' q' hq')) (fun _ => rfl) rfl
  | @collect q i hq =>
    have hframe : (m.collectLocal q).tls = m.tls ∧ (m.collectLocal q).next = m.next ∧
        (m.collectLocal q).sas = m.sas ∧ (m.collectLocal q).segment = m.segment := by
      rw [Mem.collectLocal]
      split <;> exact ⟨rfl, rfl, rfl, rfl⟩
    exact .of_blocks (by rw [hframe.1]) held_collectLocal (fun _ _ => by rw [hframe.2.1])
      (fun i' q' hq' => collectLocal_page_ne (hpages hq i' q' hq')) (fun _ => by rw [hframe.2.2.1])
      hframe.2.2.2
  | @pop q i hq hne =>
    obtain ⟨_, hplace⟩ := ((hi.queued _ _ _ hq).2.2.free.pop hne).1
    have hfree : m.place (m.page q).free ≠ .held w := by simp [hplace]
    exact .of_blocks rfl (held_setPlace hfree hnew) (fun _ _ => rfl)
      (fun i' q' hq' => setPage_ne (hpages hq i' q' hq')) (fun _ => rfl) rfl
  | handOut h =>
    exact .of_blocks rfl (held_setPlace (hother h) (by simp)) (fun _ _ => rfl) (fun _ _ _ => rfl)
      (fun _ => rfl) rfl
  | @segmentAlloc n h _ =>
    refine ⟨update_of_ne hw .., fun _ => .rfl, fun _ _ => rfl, fun _ _ _ => rfl,
      fun k hw0 hk => ?_⟩
    have hkn : k ≠ n := by
      rintro rfl
      exact hw0 (hk.symm.trans h)
    rw [segmentAlloc_sas_ne hkn, segmentAlloc_segment_ne hkn]
    exact ⟨hk, rfl⟩
  | @pageFresh i q rest hlt h =>
    obtain ⟨_, howner, _, hz⟩ := hi.freePage u q (h ▸ .head _)
    refine ⟨?_, fun c => ?_, fun c hc => pageFresh_next_ne ?_, fun i' q' hq' => ?_,
      fun k hw0 hk => ⟨hk, ?_⟩⟩
    · rw [pageFresh_tls, update_of_ne hw]
    · rw [pageFresh_place]
      split
      · next hc =>
        rw [hi.unplaced c (hc.1 ▸ hz)]
        simp
      · rfl
    · rintro rfl
      cases (hi.unplaced c hz).symm.trans hc
    · rw [pageFresh_page, update_of_ne]
      rintro rfl
      exact (hi.queued _ _ _ hq').2.2.page_ne_zero hz
    · rw [pageFresh_segment, update_of_ne]
      rintro rfl
      exact hw (hk.symm.trans howner)
  | @pageFree q i hq hused =>
    have hok := (hi.queued u i q hq).2.2
    refine ⟨?_, fun c => ?_, fun _ _ => rfl, fun i' q' hq' => ?_, fun k hw0 hk => ⟨hk, ?_⟩⟩
    · rw [pageFree_tls, update_of_ne hw]
    · rw [pageFree_place]
      split
      · next hc =>
        have hnot := hok.not_counted hused hc
        refine iff_of_false (by simp) fun hc => ?_
        rw [hc] at hnot
        cases hnot
      · rfl
    · rw [pageFree_page, update_of_ne (hpages hq i' q' hq')]
    · rw [pageFree_segment, update_of_ne]
      rintro rfl
      exact hw (hk.symm.trans hok.owner)
  | @segmentFree n h hu hused =>
    refine ⟨update_of_ne hw .., fun _ => .rfl, fun _ _ => rfl, fun i' q' _ => ?_,
      fun k hw0 hk => ?_⟩
    · rw [segmentFree_page hi (h ▸ hu) hused]
    · have hkn : k ≠ n := by
        rintro rfl
        exact hw (hk.symm.trans h)
      rw [segmentFree_sas_ne hkn, segmentFree_segment_ne hkn]
      exact ⟨hk, rfl⟩

/-- What one step of a thread does is a sequence of changes. -/
def Moves (u : Nat) : Mem → Mem → Prop := Relation.ReflTransGen (Move u)

theorem Moves.inv (h : Moves u m m') (hi : Inv m) : Inv m' := by
  induction h with
  | refl => exact hi
  | tail _ hmove ih => exact hmove.inv ih

theorem Moves.kept (h : Moves u m m') (hi : Inv m) (hw : w ≠ u) : Kept w m m' := by
  induction h with
  | refl => exact .refl
  | tail hsteps hmove ih => exact ih.trans (hmove.kept (Moves.inv hsteps hi) hw)

/-! ## What a thread knows -/

/-- The blocks in the hands of thread `u`. -/
def HeldIs (u : Nat) (l : List Nat) (m : Mem) : Prop := ∀ b, m.place b = .held u ↔ b ∈ l

/-- The root reference waits for its object. -/
def Req.held : Req → List Nat
  | .tbr _ => []
  | .obj _ ref => [ref]
  | .queue => []

def Req.Ok (u : Nat) (m : Mem) : Req → Prop
  | .tbr size => 0 < size ∧ size ≤ 1024
  | .obj size ref => (0 < size ∧ size ≤ 1024) ∧ pageOf ref ∈ (m.tls u).pages 0
  | .queue => True

variable {req : Req}

theorem Req.Ok.bin_lt (h : req.Ok u m) : req.bin < 66 := by
  cases req with
  | tbr size => exact show pageQueue true 16 < 66 by decide
  | obj size ref =>
    obtain ⟨⟨h1, h2⟩, _⟩ := h
    simp only [Req.bin, pageQueue, Bool.false_eq_true, false_and, if_false]
    omega
  | queue => exact show pageQueue true sizeofMessageQueue < 66 by decide

theorem Req.bin_obj {size tbr : Nat} : (Req.obj size tbr).bin = (size - 1) / 16 + 2 := by
  simp only [Req.bin, pageQueue, Bool.false_eq_true, false_and, if_false]

/-- The queue of a page is found again from the size of its blocks. -/
theorem pageQueue_queueBlockSize : pageQueue (decide (i < 2)) (queueBlockSize i) = i := by
  by_cases h0 : i = 0
  · subst h0
    decide
  · by_cases h1 : i = 1
    · subst h1
      decide
    · simp only [pageQueue, queueBlockSize, h0, h1, if_false, decide_eq_true_eq]
      rw [if_neg (by omega), if_neg (by omega)]
      omega

/-- An allocation on its way. -/
structure Allocating (u : Nat) (req : Req) (m : Mem) : Prop where
  held : HeldIs u req.held m
  ok : req.Ok u m

/-- An allocation looks at page `q`, with `rest` behind it. -/
structure Scanning (u : Nat) (req : Req) (qs : List Nat) (m : Mem) : Prop
    extends Allocating u req m where
  queue : ∀ q ∈ qs, q ∈ (m.tls u).pages req.bin

/-- The thread spreads the list from `tail` over its pages. -/
structure Spreading (u : Nat) (req : Req) (qs : List Nat) (tail : Nat) (m : Mem) : Prop where
  ok : req.Ok u m
  queue : ∀ q ∈ qs, q ∈ (m.tls u).pages req.bin
  held : ∀ b ∈ req.held, m.place b = .held u
  list : Linked m.next 0 tail fun b => m.place b = .held u ∧ b ∉ req.held
  owner : ∀ b, m.place b = .held u → b ∉ req.held → (m.sas (segmentOf (pageOf b))).threadId = u

def Pc.At (u : Nat) (m : Mem) : Pc → Prop
  | .idle => HeldIs u [] m
  | .crashed => True
  | .find req | .fresh req | .segmentCas req _ => Allocating u req m
  | .scan req rest => Scanning u req rest m
  | .peek req q rest | .grabLoad req q rest | .grabCas req q rest _ | .pick req q rest =>
    Scanning u req (q :: rest) m
  | .spread req q rest tail => Spreading u req (q :: rest) tail m
  | .take req q => Scanning u req [q] m ∧ (m.page q).free ≠ 0
  | .free special b =>
    HeldIs u [b] m ∧ ∀ i, pageOf b ∈ (m.tls u).pages i → special = decide (i < 2)
  | .releasePage q i => HeldIs u [] m ∧ q ∈ (m.tls u).pages i ∧ (m.page q).used = 0
  | .releaseSegment n => HeldIs u [] m ∧ (m.sas n).threadId = u ∧ (m.segment n).used = 0
  | .pushFirst b | .pushLoad b => HeldIs u [b] m
  | .pushCas b info => HeldIs u [b] m ∧ m.next b = info.threadFree

/-- Thread 0 does not exist. -/
def Pc.Holds (u : Nat) (pc : Pc) (m : Mem) : Prop := (u = 0 → pc = .idle) ∧ pc.At u m

variable {l : List Nat}

theorem HeldIs.kept (h : HeldIs w l m) (hk : Kept w m m') : HeldIs w l m' :=
  fun b => (hk.held b).trans (h b)

theorem Req.Ok.of_tls (h : req.Ok w m) (htls : m'.tls w = m.tls w) : req.Ok w m' := by
  cases req with
  | tbr size => exact h
  | obj size tbr => exact ⟨h.1, htls.symm ▸ h.2⟩
  | queue => exact h

theorem Allocating.kept (h : Allocating w req m) (hk : Kept w m m') : Allocating w req m' :=
  ⟨h.held.kept hk, h.ok.of_tls hk.tls⟩

variable {qs : List Nat}

theorem Scanning.kept (h : Scanning w req qs m) (hk : Kept w m m') : Scanning w req qs m' :=
  ⟨h.toAllocating.kept hk, fun q hq => hk.tls.symm ▸ h.queue q hq⟩

theorem Spreading.kept {tail : Nat} (h : Spreading w req qs tail m) (hw : w ≠ 0) (hk : Kept w m m') :
    Spreading w req qs tail m' where
  ok := h.ok.of_tls hk.tls
  queue q hq := hk.tls.symm ▸ h.queue q hq
  held b hb := (hk.held b).mpr (h.held b hb)
  list := h.list.congr (fun b hb => hk.next b hb.1) fun b => and_congr_left' (hk.held b).symm
  owner b hb hnot := (hk.owned _ hw (h.owner b ((hk.held b).mp hb) hnot)).1

theorem Pc.Holds.kept {pc : Pc} (h : pc.Holds w m) (hk : Kept w m m') : pc.Holds w m' := by
  refine ⟨h.1, ?_⟩
  have hw : pc ≠ .idle → w ≠ 0 := fun hpc h0 => hpc (h.1 h0)
  have hat := h.2
  cases pc with
  | idle | pushFirst b | pushLoad b => exact HeldIs.kept hat hk
  | crashed => exact hat
  | find req | fresh req | segmentCas req count => exact Allocating.kept hat hk
  | scan req rest | peek req q rest | grabLoad req q rest
  | grabCas req q rest info => exact Scanning.kept hat hk
  | pick req q rest => exact Scanning.kept hat hk
  | spread req q rest tail => exact Spreading.kept hat (hw nofun) hk
  | take req q =>
    refine ⟨hat.1.kept hk, ?_⟩
    rw [hk.page _ q (hat.1.queue q (List.mem_cons_self ..))]
    exact hat.2
  | free special b => exact ⟨hat.1.kept hk, hk.tls.symm ▸ hat.2⟩
  | releasePage q i =>
    refine ⟨hat.1.kept hk, hk.tls.symm ▸ hat.2.1, ?_⟩
    rw [hk.page i q hat.2.1]
    exact hat.2.2
  | releaseSegment n =>
    obtain ⟨h1, h2⟩ := hk.owned n (hw nofun) hat.2.1
    exact ⟨hat.1.kept hk, h1, h2.trans hat.2.2⟩
  | pushCas b info =>
    refine ⟨hat.1.kept hk, ?_⟩
    rw [hk.next b ((hat.1 b).mpr (List.mem_cons_self ..))]
    exact hat.2

/-! ## The steps of a thread -/

theorem HeldIs.seize (h : HeldIs u l m) : HeldIs u (b :: l) (m.setPlace b (.held u)) := by
  intro c
  rw [List.mem_cons]
  by_cases hc : c = b
  · rw [hc, setPlace_self]
    exact iff_of_true rfl (.inl rfl)
  · rw [setPlace_ne hc, h c]
    simp [hc]

theorem HeldIs.release {p : Place} (h : HeldIs u (b :: l) m) (hb : b ∉ l) (hp : p ≠ .held u) :
    HeldIs u l (m.setPlace b p) := by
  intro c
  by_cases hc : c = b
  · rw [hc, setPlace_self]
    exact iff_of_false hp hb
  · rw [setPlace_ne hc, h c]
    simp [hc]

theorem HeldIs.head (h : HeldIs u (b :: l) m) : m.place b = .held u :=
  (h b).mpr (.head _)

theorem call_moves {op : Op} {pc pc' : Pc} (h : call u op pc m = some (pc', m')) (hi : Inv m)
    (hat : pc.Holds u m) : Moves u m m' ∧ pc'.Holds u m' := by
  cases pc with
  | idle =>
    have hheld : HeldIs u [] m := hat.2
    simp only [call] at h
    split at h
    · cases h
    · next hu =>
      cases op with
      | malloc dataSize =>
        dsimp only at h
        split at h
        · next hsize =>
          cases h
          refine ⟨.refl, fun h0 => absurd h0 hu, hheld, ?_, hsize⟩
          rw [sizeofCXLObj]
          omega
        · cases h
      | msgQueueAlloc =>
        cases h
        exact ⟨.refl, fun h0 => absurd h0 hu, hheld, trivial⟩
      | free special b =>
        dsimp only at h
        split at h
        · next hb =>
          cases h
          refine ⟨.single (.seize hb), fun h0 => absurd h0 hu, hheld.seize, fun i hq => ?_⟩
          exact (hi.queued u i _ hq).2.2.special b special rfl hb
        · cases h
      | use b v =>
        dsimp only at h
        split at h
        · next hb =>
          cases h
          refine ⟨?_, fun _ => rfl, hheld⟩
          rcases hb with hb | hb
          · exact .single (.use hb)
          · exact .single (.use hb)
        · cases h
  | _ => cases h

/-- The CAS takes the whole list of the segment into the hands of its owner. -/
theorem spreading_grab {rest : List Nat} (hi : Inv m) (h : Scanning u req (q :: rest) m) :
    Move u m (m.grab u (segmentOf q)) ∧
      Spreading u req (q :: rest) (m.sas (segmentOf q)).info.threadFree (m.grab u (segmentOf q)) := by
  obtain ⟨hu, _, hok⟩ := hi.queued u _ q (h.queue q (.head _))
  have hplace : ∀ c, (m.grab u (segmentOf q)).place c = .held u ↔
      c ∈ req.held ∨ segmentOf (pageOf c) = segmentOf q ∧ m.place c = .threadFree := by
    intro c
    rw [← h.held c]
    show (if _ then Place.held u else m.place c) = _ ↔ _
    split
    · next hc => exact iff_of_true rfl (.inr hc)
    · next hc => simp [hc]
  have hnot : ∀ c, m.place c = .threadFree → c ∉ req.held := by
    intro c hc hmem
    cases hc.symm.trans ((h.held c).mpr hmem)
  refine ⟨.grab hok.owner hu, h.ok.of_tls rfl, h.queue, fun c hc => (hplace c).mpr (.inl hc), ?_,
    fun c hc hc' => ?_⟩
  · refine (hi.threadFree _ (hok.owner ▸ hu)).congr (fun _ _ => rfl) fun c => ?_
    rw [hplace]
    constructor
    · exact fun hc => ⟨.inr hc, hnot c hc.2⟩
    · exact fun hc => hc.1.resolve_left hc.2
  · obtain ⟨hseg, _⟩ := ((hplace c).mp hc).resolve_left hc'
    rw [hseg]
    exact (setInfo_threadId _).trans hok.owner

theorem Spreading.step {tail : Nat} (hi : Inv m) (h : Spreading u req qs tail m) (hne : tail ≠ 0) :
    Move u m (m.freeLocal tail) ∧ Spreading u req qs (m.next tail) (m.freeLocal tail) := by
  obtain ⟨⟨hheld, hnot⟩, hrest⟩ := h.list.pop hne
  obtain ⟨i, hq⟩ := hi.queued_of_owner (by rw [hheld]; nofun) (h.owner tail hheld hnot)
  have hplace : ∀ c, (m.freeLocal tail).place c = .held u ↔ m.place c = .held u ∧ c ≠ tail := by
    intro c
    by_cases hc : c = tail
    · rw [hc, freeLocal_place_self]
      simp
    · rw [freeLocal_place_ne hc]
      simp [hc]
  refine ⟨.freeLocal hheld hq, h.ok.of_tls rfl, h.queue, fun c hc => ?_, ?_, fun c hc hc' => ?_⟩
  · refine (hplace c).mpr ⟨h.held c hc, ?_⟩
    rintro rfl
    exact hnot hc
  · refine hrest.congr (fun c hc => update_of_ne hc.2 ..) fun c => ?_
    rw [hplace, and_right_comm]
  · exact h.owner c ((hplace c).mp hc).1 hc'

theorem Spreading.done (h : Spreading u req qs 0 m) : Scanning u req qs m := by
  refine ⟨⟨fun b => ⟨fun hb => ?_, h.held b⟩, h.ok⟩, h.queue⟩
  by_contra hnot
  exact h.list.not_of_null b ⟨hb, hnot⟩

theorem scanning_collect (h : Scanning u req qs m) : Scanning u req qs (m.collectLocal q) := by
  have htls : (m.collectLocal q).tls = m.tls := by
    rw [Mem.collectLocal]
    split <;> rfl
  refine ⟨⟨fun b => (held_collectLocal b).trans (h.held b), h.ok.of_tls (by rw [htls])⟩, ?_⟩
  rw [htls]
  exact h.queue

theorem scanning_fresh {rest : List Nat} (hi : Inv m) (h : Allocating u req m)
    (hq : (m.tls u).freePage = q :: rest) :
    Scanning u req [q] (m.pageFresh u req.bin q rest) ∧
      ((m.pageFresh u req.bin q rest).page q).free ≠ 0 := by
  obtain ⟨_, _, hin, hz⟩ := hi.freePage u q (hq ▸ .head _)
  have hok : req.Ok u (m.pageFresh u req.bin q rest) := by
    have hold := h.ok
    cases req with
    | tbr size => exact hold
    | obj size tbr => exact ⟨hold.1, mem_pageFresh_pages.mpr (.inr hold.2)⟩
    | queue => exact hold
  refine ⟨⟨⟨fun c => ?_, hok⟩, fun q' hq' => ?_⟩, ?_⟩
  · rw [← h.held c, pageFresh_place]
    split
    · next hc =>
      rw [hi.unplaced c (hc.1 ▸ hz)]
      exact iff_of_false nofun nofun
    · rfl
  · rw [List.mem_singleton] at hq'
    exact mem_pageFresh_pages.mpr (.inl ⟨rfl, rfl, hq'⟩)
  · rw [pageFresh_page, update_self]
    have hq0 : q ≠ 0 := by
      rintro rfl
      exact hin rfl
    exact Nat.mul_ne_zero hq0 (by decide)

theorem allocating_segmentAlloc (h : Allocating u req m) :
    Allocating u req (m.segmentAlloc u n) := by
  refine ⟨h.held, ?_⟩
  have hold := h.ok
  cases req with
  | tbr size => exact hold
  | obj size tbr =>
    refine ⟨hold.1, ?_⟩
    rw [segmentAlloc_pages]
    exact hold.2
  | queue => exact hold

theorem take_moves (hi : Inv m) (h : Scanning u req [q] m) (hne : (m.page q).free ≠ 0) (hu : u ≠ 0) :
    Moves u m (takeBlock u q m req).2 ∧ (takeBlock u q m req).1.Holds u (takeBlock u q m req).2 := by
  have hq := h.queue q (.head _)
  obtain ⟨hpage, hplace⟩ := ((hi.queued u _ q hq).2.2.free.pop hne).1
  have hpop : Move u m (m.popFree u q) := .pop hq hne
  have hheld : HeldIs u ((m.page q).free :: req.held) (m.popFree u q) :=
    HeldIs.seize (m := m.setPage _ _) h.held
  cases req with
  | tbr size =>
    refine ⟨(Relation.ReflTransGen.single hpop).tail (.write hheld.head), fun h0 => absurd h0 hu,
      hheld, h.ok, ?_⟩
    rw [hpage]
    exact hq
  | obj size tbr =>
    have htbr : m.place tbr = .held u := HeldIs.head h.held
    have hne' : tbr ≠ (m.page q).free := by
      rintro rfl
      cases htbr.symm.trans hplace
    have hpop' : Move u (m.setNext tbr (m.page q).free)
        ((m.setNext tbr (m.page q).free).popFree u q) :=
      .pop hq hne
    have hheld' : HeldIs u [tbr, (m.page q).free] (m.popFree u q) := by
      intro c
      rw [hheld c]
      exact ⟨fun hc => by simpa [Req.held, or_comm] using hc,
        fun hc => by simpa [Req.held, or_comm] using hc⟩
    have hheld1 : HeldIs u [(m.page q).free] (((m.setNext tbr (m.page q).free).popFree u q).setPlace
        tbr (.out true)) :=
      HeldIs.release hheld' (by simpa using hne')
        nofun
    have hout1 : Move u ((m.setNext tbr (m.page q).free).popFree u q)
        (((m.setNext tbr (m.page q).free).popFree u q).setPlace tbr (.out true)) :=
      .handOut (HeldIs.head hheld') h.ok.2 rfl
    have hbin : false = decide ((Req.obj size tbr).bin < 2) := by
      rw [Req.bin_obj, eq_comm, decide_eq_false_iff_not]
      omega
    have hout2 := Move.handOut hheld1.head (hpage.symm ▸ hq) hbin
    exact ⟨(((Relation.ReflTransGen.single (.write htbr)).tail hpop').tail hout1).tail hout2,
      fun h0 => absurd h0 hu, hheld1.release (by simp) nofun⟩
  | queue =>
    have hbin : true = decide (Req.queue.bin < 2) := by decide
    have hout := Move.handOut (m := (m.popFree u q).setNext (m.page q).free 0)
      (HeldIs.head hheld) (hpage.symm ▸ hq) hbin
    exact ⟨((Relation.ReflTransGen.single hpop).tail (.write hheld.head)).tail hout,
      fun h0 => absurd h0 hu, HeldIs.release (m := (m.popFree u q).setNext (m.page q).free 0) hheld
        (by simp) nofun⟩

theorem free_moves (hi : Inv m) (h : HeldIs u [b] m)
    (howner : (m.sas (segmentOf (pageOf b))).threadId = u) :
    Moves u m ((m.setNext b 0).freeLocal b) ∧ HeldIs u [] ((m.setNext b 0).freeLocal b) ∧
      ∃ i, pageOf b ∈ (m.tls u).pages i ∧
        (((m.setNext b 0).freeLocal b).page (pageOf b)).blockSize = queueBlockSize i := by
  obtain ⟨i, hq⟩ := hi.queued_of_owner (by rw [h.head]; nofun) howner
  refine ⟨(Relation.ReflTransGen.single (.write h.head)).tail
    (.freeLocal h.head hq), ?_, i, hq, ?_⟩
  · exact HeldIs.release h (by simp) nofun
  · rw [freeLocal_page_self]
    exact (hi.queued u i _ hq).2.2.size

theorem run_moves {segments : Nat} {pc pc' : Pc} (h : run segments u pc m = some (pc', m'))
    (hi : Inv m) (hat : pc.Holds u m) : Moves u m m' ∧ pc'.Holds u m' := by
  have hu : pc ≠ .idle → u ≠ 0 := fun hpc h0 => hpc (hat.1 h0)
  have hholds : ∀ {pc'' : Pc}, pc ≠ .idle → pc''.At u m' → pc''.Holds u m' :=
    fun hpc hat' => ⟨fun h0 => absurd h0 (hu hpc), hat'⟩
  replace hat := hat.2
  cases pc with
  | idle => cases h
  | crashed => cases h
  | find req =>
    simp only [run] at h
    split at h
    · cases h
      exact ⟨.refl, hholds nofun ⟨hat, nofun⟩⟩
    · next q rest hq =>
      cases h
      refine ⟨.refl, hholds nofun ?_⟩
      split
      · exact ⟨hat, fun q' hq' => hq ▸ hq'⟩
      · next hne =>
        refine ⟨⟨hat, fun q' hq' => ?_⟩, hne⟩
        rw [List.mem_singleton] at hq'
        rw [hq, hq']
        exact .head _
  | scan req rest =>
    cases rest with
    | nil =>
      cases h
      exact ⟨.refl, hholds nofun hat.toAllocating⟩
    | cons q rest =>
      cases h
      exact ⟨.refl, hholds nofun hat⟩
  | peek req q rest =>
    cases h
    refine ⟨.refl, hholds nofun ?_⟩
    split <;> exact hat
  | grabLoad req q rest | pushFirst b =>
    cases h
    exact ⟨.refl, hholds nofun hat⟩
  | grabCas req q rest info =>
    simp only [run] at h
    split at h
    · next heq =>
      cases h
      obtain ⟨hmove, hspread⟩ := spreading_grab hi hat
      rw [heq] at hspread
      exact ⟨.single hmove, hholds nofun hspread⟩
    · cases h
      exact ⟨.refl, hholds nofun hat⟩
  | spread req q rest tail =>
    simp only [run] at h
    split at h
    · next heq =>
      cases h
      subst heq
      exact ⟨.refl, hholds nofun (Spreading.done hat)⟩
    · next hne =>
      cases h
      obtain ⟨hmove, hspread⟩ := Spreading.step hi hat hne
      exact ⟨.single hmove, hholds nofun hspread⟩
  | pick req q rest =>
    cases h
    have hscan : Scanning u req (q :: rest) (m.collectLocal q) := scanning_collect hat
    refine ⟨.single (.collect (hat.queue q (.head _))), hholds nofun ?_⟩
    split
    · exact ⟨hscan.toAllocating, fun q' hq' => hscan.queue q' (.tail _ hq')⟩
    · next hne =>
      refine ⟨⟨hscan.toAllocating, fun q' hq' => hscan.queue q' ?_⟩, hne⟩
      rw [List.mem_singleton] at hq'
      exact hq' ▸ .head _
  | fresh req =>
    simp only [run] at h
    split at h
    · cases h
      exact ⟨.refl, hholds nofun hat⟩
    · next q rest hq =>
      cases h
      exact ⟨.single (.pageFresh (Req.Ok.bin_lt hat.ok) hq),
        hholds nofun (scanning_fresh hi hat hq)⟩
  | segmentCas req count =>
    simp only [run] at h
    split at h
    · split at h
      · next hfree =>
        cases h
        exact ⟨.single (.segmentAlloc hfree (hu nofun)),
          hholds nofun (allocating_segmentAlloc hat)⟩
      · cases h
        exact ⟨.refl, hholds nofun hat⟩
    · cases h
      exact ⟨.refl, hholds nofun trivial⟩
  | take req q =>
    have hmoves := take_moves hi hat.1 hat.2 (hu nofun)
    rw [show takeBlock u q m req = (pc', m') from Option.some.inj h] at hmoves
    exact hmoves
  | free special b =>
    obtain ⟨hheld, hspecial⟩ := hat
    simp only [run] at h
    split at h
    · next howner =>
      cases h
      rw [hi.threadId] at howner
      obtain ⟨hmoves, hnone, i, hq, hsize⟩ := free_moves hi hheld howner
      refine ⟨hmoves, hholds nofun ?_⟩
      split
      · next hused =>
        rw [hsize, hspecial i hq, pageQueue_queueBlockSize]
        exact ⟨hnone, hq, hused⟩
      · exact hnone
    · cases h
      exact ⟨.single (.write hheld.head), hholds nofun hheld⟩
  | releasePage q i =>
    cases h
    obtain ⟨hheld, hq, hused⟩ := hat
    have hok := (hi.queued u i q hq).2.2
    have hnone : HeldIs u [] (m.pageFree u i q) := by
      intro c
      rw [← hheld c, pageFree_place]
      split
      · next hc =>
        have hnot := hok.not_counted hused hc
        refine iff_of_false nofun fun hc => ?_
        rw [hc] at hnot
        cases hnot
      · rfl
    refine ⟨.single (.pageFree hq hused), hholds nofun ?_⟩
    split
    · next hzero => exact ⟨hnone, hok.owner, hzero⟩
    · exact hnone
  | releaseSegment n =>
    cases h
    obtain ⟨hheld, howner, hused⟩ := hat
    exact ⟨.single (.segmentFree howner (hu nofun) hused), hholds nofun hheld⟩
  | pushLoad b =>
    simp only [run] at h
    split at h
    · next hleak =>
      rw [hi.normal] at hleak
      cases hleak
    · cases h
      exact ⟨.single (.write (HeldIs.head hat)), hholds nofun ⟨hat, update_self ..⟩⟩
  | pushCas b info =>
    obtain ⟨hheld, hnext⟩ := hat
    simp only [run] at h
    split at h
    · next heq =>
      cases h
      refine ⟨.single ?_, hholds nofun (HeldIs.release hheld (by simp) nofun)⟩
      rw [← heq] at hnext ⊢
      exact .push hheld.head hnext
    · cases h
      exact ⟨.refl, hholds nofun hheld⟩

theorem inv_of_zero (hpage : ∀ q, m.page q = .zero) (hseg : ∀ n, m.segment n = ⟨0, 0⟩)
    (hsas : ∀ n, m.sas n = ⟨0, .normal, 0⟩) (hfree : ∀ t, (m.tls t).freePage = [])
    (hqueue : ∀ t i, (m.tls t).pages i = []) (hplace : ∀ b, m.place b = .none) : Inv m := by
  have hz : ∀ {P : Prop} {n : Nat}, (m.sas n).threadId ≠ 0 → P := by
    intro P n hn
    rw [hsas n] at hn
    exact absurd rfl hn
  refine ⟨fun t i q hq => ?_, fun t i => ?_, fun t i t' i' q hq => ?_, fun t q hq => ?_, fun t => ?_,
    fun q => .inl (hpage q), fun b _ => hplace b, fun n => ?_, fun n => ?_, fun n hn => hz hn,
    fun n hn => hz hn⟩
  · rw [hqueue] at hq
    cases hq
  · rw [hqueue]
    exact List.nodup_nil
  · rw [hqueue] at hq
    cases hq
  · rw [hfree] at hq
    cases hq
  · rw [hfree]
    exact List.nodup_nil
  · rw [hseg, hsas]
  · rw [hsas]

theorem holds_of_reach {segments : Nat} {s : Sys Mem Pc}
    (h : (machine segments).Reach Machine.free fresh s) :
    Machine.Holds Inv (fun u pc m => pc.Holds u m) s := by
  refine Machine.Reach.invariant (fun s hs => ?_) (fun s a l m hs _ ha => ?_) h
  · obtain ⟨hpage, hseg, hsas, hfree, hqueue, hplace, hidle⟩ := hs
    refine ⟨inv_of_zero hpage hseg hsas hfree hqueue hplace, fun u => ?_⟩
    rw [hidle u]
    refine ⟨fun _ => rfl, fun b => ?_⟩
    rw [hplace b]
    exact iff_of_false nofun nofun
  · obtain ⟨hi, hat⟩ := hs
    have hmoves : Moves a.thread s.mem m ∧ l.Holds a.thread m := by
      cases a with
      | call u op => exact call_moves ha hi (hat u)
      | run u => exact run_moves ha hi (hat u)
    exact ⟨hmoves.1.inv hi, hmoves.2, fun w hw => (hat w).kept (hmoves.1.kept hi hw)⟩

/-! ## Conservation -/

/-- The blocks of page `q` between operations: `outs` are handed out, the others on
the lists of the page and of its segment. Every block of the page is in one of them,
once. -/
structure Conserved (m : Mem) (q : Nat) (outs frees locals threads : List Nat) : Prop where
  handedOut : ∀ b, b ∈ outs ↔ pageOf b = q ∧ ∃ special, m.place b = .out special
  free : Links m.next 0 (m.page q).free frees
  localFree : Links m.next 0 (m.page q).localFree locals
  threadFree : Links m.next 0 (m.sas (segmentOf q)).info.threadFree threads
  nodup : threads.Nodup
  once : (outs ++ frees ++ locals ++ threads.filter (pageOf · = q)).Perm
    ((List.range (pageSize / (m.page q).blockSize)).map (q * pageSize + · * (m.page q).blockSize))
  used : (m.page q).used = outs.length + (threads.filter (pageOf · = q)).length

theorem place_cases (hheld : ∀ u, HeldIs u [] m) (hb : m.place b ≠ .none) :
    (∃ sp, m.place b = .out sp) ∨ m.place b = .free ∨ m.place b = .localFree ∨
      m.place b = .threadFree := by
  cases hp : m.place b with
  | none => exact absurd hp hb
  | free => exact .inr (.inl rfl)
  | localFree => exact .inr (.inr (.inl rfl))
  | threadFree => exact .inr (.inr (.inr rfl))
  | held u => exact nomatch (hheld u b).mp hp
  | out sp => exact .inl ⟨sp, rfl⟩

theorem Inv.conserved (hi : Inv m) (hheld : ∀ u, HeldIs u [] m) (hq : q ∈ (m.tls t).pages i) :
    ∃ outs frees locals threads, Conserved m q outs frees locals threads := by
  obtain ⟨ht, _, hok⟩ := hi.queued t i q hq
  obtain ⟨frees, hfree, hfree_nd, hfree_mem⟩ := hok.free
  obtain ⟨locals, hlocal, hlocal_nd, hlocal_mem⟩ := hok.localFree
  obtain ⟨threads, hthread, hthread_nd, hthread_mem⟩ := hi.threadFree (segmentOf q) (hok.owner ▸ ht)
  have hbs : 0 < (m.page q).blockSize :=
    hok.size ▸ Nat.lt_of_lt_of_le (by decide) (queueBlockSize_ge i)
  let blocks := (List.range (pageSize / (m.page q).blockSize)).map
    (q * pageSize + · * (m.page q).blockSize)
  let outs := blocks.filter fun b => m.place b = .out true ∨ m.place b = .out false
  have hblocks_nd : blocks.Nodup :=
    List.Nodup.map (fun _ _ h => Nat.mul_right_cancel hbs (Nat.add_left_cancel h)) List.nodup_range
  have hblocks : ∀ b, b ∈ blocks ↔ pageOf b = q ∧ m.place b ≠ .none := by
    intro b
    rw [and_congr_right fun hb => hok.placed b hb, isBlock_iff]
    simp [blocks, eq_comm]
  have houts : ∀ b, b ∈ outs ↔ pageOf b = q ∧ ∃ special, m.place b = .out special := by
    intro b
    rw [List.mem_filter, hblocks, decide_eq_true_eq]
    constructor
    · intro h
      exact ⟨h.1.1, h.2.elim (fun h => ⟨_, h⟩) fun h => ⟨_, h⟩⟩
    · intro h
      obtain ⟨hb, special, hsp⟩ := h
      refine ⟨⟨hb, by rw [hsp]; nofun⟩, ?_⟩
      cases special with
      | false => exact .inr hsp
      | true => exact .inl hsp
  have hmine : ∀ b, b ∈ threads.filter (pageOf · = q) ↔ pageOf b = q ∧ m.place b = .threadFree := by
    intro b
    rw [List.mem_filter, hthread_mem, decide_eq_true_eq]
    constructor
    · exact fun h => ⟨h.2, h.1.2⟩
    · exact fun h => ⟨⟨h.1 ▸ rfl, h.2⟩, h.1⟩
  -- a block is at one place, so the lists have nothing in common
  have hone : ∀ b, pageOf b = q ∧ (∃ special, m.place b = .out special) →
      pageOf b = q ∧ m.place b = .threadFree → False := by
    rintro b ⟨_, special, h⟩ ⟨_, h'⟩
    cases h.symm.trans h'
  have hmine_nd : (outs ++ threads.filter (pageOf · = q)).Nodup := by
    refine List.nodup_append'.mpr ⟨hblocks_nd.filter _, hthread_nd.filter _, fun b h h' => ?_⟩
    exact hone b ((houts b).mp h) ((hmine b).mp h')
  refine ⟨outs, frees, locals, threads, houts, hfree, hlocal, hthread, hthread_nd, ?_, ?_⟩
  · refine (List.perm_ext_iff_of_nodup ?_ hblocks_nd).mpr fun b => ?_
    · rw [List.nodup_append', List.nodup_append', List.nodup_append']
      refine ⟨⟨⟨hblocks_nd.filter _, hfree_nd, fun b h h' => ?_⟩, hlocal_nd, fun b h h' => ?_⟩,
        hthread_nd.filter _, fun b h h' => ?_⟩
      · obtain ⟨_, special, hsp⟩ := (houts b).mp h
        cases hsp.symm.trans ((hfree_mem b).mp h').2
      · have hb := ((hlocal_mem b).mp h').2
        rcases List.mem_append.mp h with h | h
        · obtain ⟨_, special, hsp⟩ := (houts b).mp h
          cases hsp.symm.trans hb
        · cases ((hfree_mem b).mp h).2.symm.trans hb
      · have hb := ((hmine b).mp h').2
        rcases List.mem_append.mp h with h | h
        · rcases List.mem_append.mp h with h | h
          · exact hone b ((houts b).mp h) ((hmine b).mp h')
          · cases ((hfree_mem b).mp h).2.symm.trans hb
        · cases ((hlocal_mem b).mp h).2.symm.trans hb
    · rw [List.mem_append, List.mem_append, List.mem_append, houts, hfree_mem, hlocal_mem, hmine,
        hblocks, ← and_or_left, ← and_or_left, ← and_or_left]
      refine and_congr_right fun _ => ⟨fun h => ?_, fun h => ?_⟩
      · rcases h with ((⟨sp, h⟩ | h) | h) | h <;> rw [h] <;> nofun
      · rcases place_cases hheld h with h | h | h | h
        · exact .inl (.inl (.inl h))
        · exact .inl (.inl (.inr h))
        · exact .inl (.inr h)
        · exact .inr h
  · rw [hok.used, ← List.length_append, ← List.toFinset_card_of_nodup hmine_nd, usedCount]
    refine congrArg Finset.card (Finset.ext fun b => ?_)
    rw [List.mem_toFinset, List.mem_append, houts, hmine, ← and_or_left, Finset.mem_filter,
      mem_blocksOf, and_assoc]
    refine and_congr_right fun hb => ⟨fun h => ?_, fun h => ?_⟩
    · rcases place_cases hheld ((hok.placed b hb).mpr h.1) with h' | h' | h' | h'
      · exact .inl h'
      · rw [h'] at h
        cases h.2
      · rw [h'] at h
        cases h.2
      · exact .inr h'
    · rcases h with ⟨sp, h⟩ | h
      · exact ⟨(hok.placed b hb).mp (by rw [h]; nofun), by rw [h]; rfl⟩
      · exact ⟨(hok.placed b hb).mp (by rw [h]; nofun), by rw [h]; rfl⟩

/-- Whenever no operation is under way, every block of every page in a page queue is
handed out or on one of the lists `free`, `local_free` and `thread_free`, in exactly
one place, `used` counts the blocks handed out or on `thread_free`, and no segment
may be leaking. -/
theorem blocks_conserved {segments : Nat} {s : Sys Mem Pc}
    (h : (machine segments).Reach Machine.free fresh s) (hidle : ∀ u, s.loc u = .idle) :
    (∀ t i q, q ∈ (s.mem.tls t).pages i →
      ∃ outs frees locals threads, Conserved s.mem q outs frees locals threads) ∧
    ∀ n, (s.mem.sas n).info.state ≠ .potentialLeaking := by
  obtain ⟨hi, hat⟩ := holds_of_reach h
  have hheld : ∀ u, HeldIs u [] s.mem := by
    intro u
    have := (hat u).2
    rw [hidle u] at this
    exact this
  refine ⟨fun t i q hq => hi.conserved hheld hq, fun n => ?_⟩
  rw [hi.normal n]
  nofun

def emptyMemory : Sys Mem Pc :=
  ⟨⟨fun _ => 0, fun _ => .zero, fun _ => ⟨0, 0⟩, fun _ => ⟨0, .normal, 0⟩, fun _ => ⟨fun _ => [], []⟩,
    fun _ => .none⟩, fun _ => .idle⟩

/-- A call of thread `u` that takes `n` accesses. -/
def whole (u : Nat) (op : Op) (n : Nat) : List (Act Op) :=
  .call u op :: List.replicate n (.run u)

/-- The first page of objects in the first segment, and its block `k` of 32 bytes. -/
def objectPage : Nat := firstSegment * pagesPerSegment + 2

def objectBlock (k : Nat) : Nat := objectPage * pageSize + k * 32

/-- Thread 1 allocates three objects. Thread 2 frees the first one and thread 1 the
second one. -/
def mixedFrees : List (Act Op) :=
  whole 1 (.malloc 8) 10 ++ whole 1 (.malloc 8) 4 ++ whole 1 (.malloc 8) 4 ++
  whole 2 (.free false (objectBlock 0)) 4 ++ whole 1 (.free false (objectBlock 1)) 1

theorem mixedFrees_run : ((machine 1).runUnder Machine.free mixedFrees emptyMemory).any fun s =>
      s.loc 1 = .idle ∧ s.loc 2 = .idle ∧ objectPage ∈ (s.mem.tls 1).pages 3 ∧
        s.mem.place (objectBlock 0) = .threadFree ∧ s.mem.place (objectBlock 1) = .localFree ∧
        s.mem.place (objectBlock 2) = .out false ∧ s.mem.place (objectBlock 3) = .free := by
  decide +kernel

theorem blocks_conserved_mixedFrees :
    ∃ s : Sys Mem Pc, (machine 1).Reach Machine.free fresh s ∧ (∀ u, s.loc u = .idle) ∧
      s.mem.place (objectBlock 0) = .threadFree ∧ s.mem.place (objectBlock 1) = .localFree ∧
      s.mem.place (objectBlock 2) = .out false ∧ s.mem.place (objectBlock 3) = .free ∧
      ∃ outs frees locals threads, Conserved s.mem objectPage outs frees locals threads := by
  obtain ⟨s, hs, hreach, h1, h2, hq, hthread, hlocal, hout, hfree⟩ :=
    Machine.reach_of_any fresh ⟨fun _ => rfl, fun _ => rfl, fun _ => rfl, fun _ => rfl,
      fun _ _ => rfl, fun _ => rfl, fun _ => rfl⟩ mixedFrees_run
  have hidle : ∀ u, s.loc u = .idle :=
    Machine.runUnder_rest_of_mem [1, 2] (fun _ => rfl) (by decide) hs (by simp [h1, h2])
  exact ⟨s, hreach, hidle, hthread, hlocal, hout, hfree,
    (blocks_conserved hreach hidle).1 1 3 objectPage hq⟩

end ShmPcc.CxlAlloc
