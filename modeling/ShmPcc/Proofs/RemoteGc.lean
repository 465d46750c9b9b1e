import ShmPcc.Ref.RemoteGc

/-!
# Who releases the chunks of a chain

A call tests the owner of the node it begins with and of no other node of its loop. So the
chunks of a base node are all released by the machine in whose pool the first node of the
loop lies, which is one of their own machines (`Chain.Placed`): right where no other machine
has grown the list of the base node, and wrong for a chunk that another machine has added.

Which machine releases what is fixed from the beginning (`due`), whatever the order of the
messages is: what was released and what the messages that are under way will release is
always a permutation of it.
-/

namespace ShmPcc.RemoteGc

variable {L : Layout} {me : Nat}

theorem Layout.localBase_succ (L : Layout) (i : Nat) : L.localBase (i + 1) = L.localBase i + L.shmSize := by
  simp only [localBase, Nat.succ_mul]
  omega

theorem Layout.localBase_mono (L : Layout) {i j : Nat} (h : i ≤ j) : L.localBase i ≤ L.localBase j :=
  Nat.add_le_add_left (Nat.mul_le_mul_right _ h) _

/-- An address inside a chunk is in no other pool than its own. -/
theorem Chunk.ownsMemkindPointer_iff (k : Chunk L) (me : Nat) {i : Nat} (hi : i < k.size) :
    ownsMemkindPointer L me (k.start + i) ↔ k.owner = me := by
  have hlower := k.lower
  have hupper := k.upper
  constructor
  · intro ⟨h1, h2⟩
    rw [← L.localBase_succ] at h2 hupper
    by_contra hne
    obtain hlt | hlt := Nat.lt_or_gt_of_ne hne
    · have := L.localBase_mono (Nat.succ_le_of_lt hlt)
      simp only [Nat.succ_eq_add_one] at this
      omega
    · have := L.localBase_mono (Nat.succ_le_of_lt hlt)
      simp only [Nat.succ_eq_add_one] at this
      omega
  · rintro rfl
    exact ⟨by omega, by omega⟩

theorem Node.getPtrMachineIndex_ptr (n : Node L) : getPtrMachineIndex L n.ptr = n.chunk.owner := by
  have hlower := n.chunk.lower
  have hupper := n.chunk.upper
  have hi := n.inside
  have htop := L.localBase_mono (Nat.succ_le_of_lt n.chunk.owner_lt)
  rw [Nat.succ_eq_add_one, L.localBase_succ] at htop
  simp only [Layout.localBase] at hlower hupper htop
  rw [Nat.mul_comm L.machines] at htop
  have hin : L.globalBase ≤ n.ptr ∧ n.ptr < L.globalBase + L.shmSize * L.machines := by
    simp only [Node.ptr]
    omega
  rw [getPtrMachineIndex, if_pos hin]
  congr 1
  refine Nat.div_eq_of_lt_le ?_ ?_
  · simp only [Node.ptr]
    omega
  · rw [Nat.succ_mul]
    simp only [Node.ptr]
    omega

/-- The machine whose pool the first node of a chain is in. -/
def Chain.owner (c : Chain L) : Nat := c.node.chunk.owner

theorem forwardOr_eq (hme : me < L.machines) (c : Chain L) (loop : List (Event L)) :
    forwardOr me c loop = if c.owner = me then loop else [.sendMsg c.owner c] := by
  have howner := c.node.chunk.owner_lt
  rw [forwardOr, forwardRemoteEpochGCIfNeeded, c.node.getPtrMachineIndex_ptr, Chain.owner]
  by_cases hone : L.machines ≤ 1
  · rw [if_pos hone, if_pos (by omega)]
  · rw [if_neg hone]
    by_cases heq : c.node.chunk.owner = me
    · simp [heq]
    · have : ¬((c.node.chunk.owner : Int) < 0 ∨ (c.node.chunk.owner : Int) = me) := by omega
      rw [if_neg this, if_neg heq, Int.toNat_natCast]

/-! ## What is to be released, and by whom -/

def release (me : Nat) (k : Chunk L) : Release :=
  ⟨me, if k.owner = me then .memkind else .heap, k.start⟩

theorem release?_free (k : Chunk L) : (free me k.start : Event L).release? me = some (release me k) := by
  have hown := k.ownsMemkindPointer_iff me k.pos
  rw [Nat.add_zero] at hown
  simp only [free, Event.release?, release, hown]

theorem msg?_free (k : Chunk L) : (free me k.start : Event L).msg? = none := rfl

/-- The chunks of a chain, each with the machine that comes to free it when the loop of a
call runs on machine `me`. -/
def freedBy (me : Nat) : Chain L → List (Nat × Chunk L)
  | .base node grown => (node.chunk :: grown).map fun k => (me, k)
  | .delta _ _ child => freedBy me child
  | .merge _ child right => freedBy child.owner child ++ freedBy right.owner right
  | .remove chunk _ | .abort chunk => [(me, chunk)]

/-- What follows from the loop of a call on machine `me`, there and elsewhere. -/
def dueAt (me : Nat) (c : Chain L) : List Release := (freedBy me c).map fun x => release x.1 x.2

/-- What follows from a call. -/
def due (c : Chain L) : List Release := dueAt c.owner c

/-- What was done in a call and what its messages will do. -/
def outcome (me : Nat) (events : List (Event L)) : List Release :=
  events.filterMap (Event.release? me) ++ (events.filterMap Event.msg?).flatMap fun x => due x.2

theorem perm_append_middle {α : Type} (as bs cs ds : List α) :
    ((as ++ bs) ++ (cs ++ ds)).Perm ((as ++ cs) ++ (bs ++ ds)) := by
  simp only [List.append_assoc]
  refine List.Perm.append_left as ?_
  simp only [← List.append_assoc]
  exact List.Perm.append_right ds List.perm_append_comm

theorem outcome_append (es fs : List (Event L)) :
    (outcome me (es ++ fs)).Perm (outcome me es ++ outcome me fs) := by
  simp only [outcome, List.filterMap_append, List.flatMap_append]
  exact perm_append_middle ..

theorem outcome_sendMsg (c : Chain L) (owner : Nat) : outcome me [.sendMsg owner c] = due c := by
  show [] ++ (due c ++ []) = due c
  simp

theorem outcome_frees (ks : List (Chunk L)) :
    outcome me (ks.map fun k => (free me k.start : Event L)) = ks.map (release me) := by
  have h1 : (Event.release? me ∘ fun k : Chunk L => (free me k.start : Event L)) =
      fun k => some (release me k) := funext release?_free
  have h2 : (Event.msg? ∘ fun k : Chunk L => (free me k.start : Event L)) = fun _ => none :=
    funext msg?_free
  simp only [outcome, List.filterMap_map, h1, h2]
  simp

variable {c : Chain L}

theorem outcome_forwardOr (hme : me < L.machines) {loop : List (Event L)}
    (h : (outcome me loop).Perm (dueAt me c)) :
    (outcome me (forwardOr me c loop)).Perm (due c) := by
  rw [forwardOr_eq hme]
  split
  · next heq =>
    rw [due, heq]
    exact h
  · rw [outcome_sendMsg]

/-- The loop of `FreeEpochDeltaChain`, by the shape of the chain. -/
theorem outcome_freeLoop (hme : me < L.machines) (c : Chain L) :
    (outcome me (freeLoop me c)).Perm (dueAt me c) := by
  induction c with
  | base node grown =>
    rw [freeLoop, destroy, outcome_frees, dueAt, freedBy, List.map_map]
    rfl
  | delta type node child ih => exact ih
  | merge node child right ihc ihr =>
    rw [freeLoop, dueAt, freedBy, List.map_append]
    exact (outcome_append _ _).trans ((outcome_forwardOr hme ihc).append (outcome_forwardOr hme ihr))
  | remove chunk id =>
    show (outcome me (.invalidateNodeID id :: [chunk].map fun k => free me k.start)).Perm _
    exact .of_eq (outcome_frees [chunk])
  | abort chunk => exact .of_eq (outcome_frees [chunk])

theorem outcome_freeEpochDeltaChain (hme : me < L.machines) (c : Chain L) :
    (outcome me (freeEpochDeltaChain me c)).Perm (due c) :=
  outcome_forwardOr hme (outcome_freeLoop hme c)

/-! ## The messages -/

/-- The nodes of a chain. -/
def Chain.length : Chain L → Nat
  | .base _ _ | .remove _ _ | .abort _ => 1
  | .delta _ _ child => child.length + 1
  | .merge _ child right => child.length + right.length + 1

def weight (msgs : List (Nat × Chain L)) : Nat := (msgs.map fun x => x.2.length).sum

/-- The messages go to the machines their nodes are from, and have at most `n` nodes. -/
def Sent (n : Nat) (msgs : List (Nat × Chain L)) : Prop :=
  (∀ x ∈ msgs, x.1 = x.2.owner) ∧ weight msgs ≤ n

theorem Sent.append {n k : Nat} {xs ys : List (Nat × Chain L)} (hx : Sent n xs) (hy : Sent k ys) :
    Sent (n + k) (xs ++ ys) := by
  refine ⟨?_, ?_⟩
  · intro x hmem
    exact (List.mem_append.mp hmem).elim (hx.1 x) (hy.1 x)
  · have h1 := hx.2
    have h2 := hy.2
    simp only [weight, List.map_append, List.sum_append] at *
    omega

theorem Chain.length_pos (c : Chain L) : 0 < c.length := by
  cases c <;> simp only [length] <;> omega

theorem sent_forwardOr (hme : me < L.machines) {loop : List (Event L)}
    (h : Sent (c.length - 1) (loop.filterMap Event.msg?)) :
    Sent c.length ((forwardOr me c loop).filterMap Event.msg?) := by
  rw [forwardOr_eq hme]
  split
  · exact ⟨h.1, h.2.trans (Nat.sub_le _ _)⟩
  · show Sent c.length [(c.owner, c)]
    simp [Sent, weight]

theorem sent_freeLoop (hme : me < L.machines) (c : Chain L) :
    Sent (c.length - 1) ((freeLoop me c).filterMap Event.msg?) := by
  induction c with
  | base node grown =>
    have h : (Event.msg? ∘ fun k : Chunk L => (free me k.start : Event L)) = fun _ => none :=
      funext msg?_free
    rw [freeLoop, destroy, List.filterMap_map, h]
    simp [Sent, weight]
  | delta type node child ih => exact ⟨ih.1, ih.2.trans (by simp only [Chain.length]; omega)⟩
  | merge node child right ihc ihr =>
    rw [freeLoop, List.filterMap_append]
    exact (sent_forwardOr hme ihc).append (sent_forwardOr hme ihr)
  | remove chunk id | abort chunk =>
    show Sent 0 []
    simp [Sent, weight]

/-! ## Runs -/

/-- What was released and what the messages will release is what is due. -/
structure Owed (c : Chain L) (m : Mem L) : Prop where
  sent : ∀ x ∈ m.msgs, x.1 = x.2.owner
  perm : (m.released ++ m.msgs.flatMap fun x => due x.2).Perm (due c)

theorem Mem.call_perm (hme : me < L.machines) (m : Mem L) (c : Chain L) :
    ((m.call me c).released ++ (m.call me c).msgs.flatMap fun x => due x.2).Perm
      ((m.released ++ m.msgs.flatMap fun x => due x.2) ++ due c) := by
  simp only [Mem.call, List.flatMap_append]
  exact (perm_append_middle ..).trans ((outcome_freeEpochDeltaChain hme c).append_left _)

theorem owed_called (hme : me < L.machines) (c : Chain L) : Owed c ((Mem.mk [] []).call me c) where
  sent := by
    exact (sent_forwardOr hme (sent_freeLoop hme c)).1
  perm := by simpa using Mem.call_perm hme (.mk [] []) c

/-- A message that is handled is replaced by what it causes. -/
theorem Owed.handle {m m' : Mem L} {k : Nat} (h : Owed c m) (hs : handle k m = some m') :
    Owed c m' ∧ weight m'.msgs < weight m.msgs := by
  obtain ⟨⟨o, c'⟩, hk, rfl⟩ := Option.map_eq_some_iff.mp hs
  obtain ⟨hlt, hget⟩ := List.getElem?_eq_some_iff.mp hk
  have herase : ((o, c') :: m.msgs.eraseIdx k).Perm m.msgs := hget ▸ List.getElem_cons_eraseIdx_perm hlt
  obtain rfl : o = c'.owner := h.sent _ (herase.mem_iff.mp (.head _))
  have howner : c'.owner < L.machines := c'.node.chunk.owner_lt
  have hsent := sent_freeLoop howner c'
  have hevents : freeEpochDeltaChain c'.owner c' = freeLoop c'.owner c' := by
    rw [freeEpochDeltaChain, forwardOr_eq howner, if_pos rfl]
  refine ⟨⟨?_, ?_⟩, ?_⟩
  · intro x hx
    simp only [Mem.call, hevents, List.mem_append] at hx
    obtain hx | hx := hx
    · exact h.sent x (List.mem_of_mem_eraseIdx hx)
    · exact hsent.1 x hx
  · refine (Mem.call_perm howner _ c').trans (List.Perm.trans ?_ h.perm)
    rw [List.append_assoc]
    refine List.Perm.append_left _ (List.perm_append_comm.trans ?_)
    exact herase.flatMap_right fun x => due x.2
  · have hweight := (herase.map fun x => x.2.length).sum_nat
    have hpos := c'.length_pos
    have hle := hsent.2
    simp only [Mem.call, hevents, weight, List.map_append, List.sum_append, List.map_cons,
      List.sum_cons] at *
    omega

theorem owed_of_reach {s : Sys (Mem L) Unit} (hme : me < L.machines)
    (hs : (machine L).Reach Machine.free (called me c) s) : Owed c s.mem := by
  refine hs.ofSteps_invariant ?_ ?_
  · intro s hs
    rw [show s.mem = _ from hs]
    exact owed_called hme c
  · intro s t k m h _ hstep
    exact (h.handle hstep).1

/-- Every message is handled in the end. -/
theorem leads_handled {s : Sys (Mem L) Unit} (h : Owed c s.mem) :
    (machine L).Leads Machine.free (fun s' => s'.mem.msgs = []) s := by
  refine .of_rank Nat.lt_wfRel.wf (fun s => weight s.mem.msgs) (I := fun s => Owed c s.mem) ?_ h
  intro s h
  cases hmsgs : s.mem.msgs with
  | nil => exact .inl rfl
  | cons x xs =>
    have hs : RemoteGc.handle 0 s.mem = some (({ s.mem with msgs := xs } : Mem L).call x.1 x.2) := by
      simp [RemoteGc.handle, hmsgs]
    have hcall : (machine L).call 0 0 (s.loc 0) s.mem =
        some ((), ({ s.mem with msgs := xs } : Mem L).call x.1 x.2) := by
      simp [machine, Machine.ofSteps, hs]
    have hstep := Machine.step_call hcall
    have hnext := h.handle hs
    exact .inr ⟨.call 0 0, _, trivial, hstep, hnext.1, hmsgs ▸ hnext.2⟩

/-! ## The owners -/

/-- Every chunk is freed by its owner when the loop runs on machine `me`. -/
def Fits (me : Nat) (c : Chain L) : Prop := ∀ x ∈ freedBy me c, x.2.owner = x.1

theorem fits_iff (hp : c.Placed) :
    (Fits c.owner c ↔ c.OneOwner) ∧ ∀ k ∈ c.home, (Fits k.owner c ↔ c.OneOwner) := by
  induction c with
  | base node grown =>
    have h : ∀ k ∈ node.chunk :: grown, (Fits k.owner (.base node grown) ↔ Chain.OneOwner (.base node grown)) := by
      intro k hk
      simp only [Fits, freedBy, Chain.OneOwner, List.forall_mem_map, List.forall_mem_cons]
      constructor
      · intro ⟨h1, h2⟩ k' hk'
        exact (h2 k' hk').trans h1.symm
      · intro hall
        have hk' : k.owner = node.chunk.owner := by
          obtain rfl | hk := List.mem_cons.mp hk
          · rfl
          · exact hall k hk
        exact ⟨hk'.symm, fun k' hmem => (hall k' hmem).trans hk'.symm⟩
    exact ⟨h node.chunk (.head _), h⟩
  | delta type node child ih =>
    obtain ⟨hmem, hp⟩ := hp
    exact ⟨(ih hp).2 _ hmem, (ih hp).2⟩
  | merge node child right ihc ihr =>
    obtain ⟨_, hpc, hpr⟩ := hp
    have h : ∀ o, Fits o (.merge node child right) ↔ child.OneOwner ∧ right.OneOwner := by
      intro o
      rw [← (ihc hpc).1, ← (ihr hpr).1]
      simp only [Fits, freedBy, List.forall_mem_append]
    exact ⟨h _, fun _ _ => h _⟩
  | remove chunk id | abort chunk =>
    refine ⟨iff_of_true ?_ trivial, nofun⟩
    simp [Fits, freedBy, Chain.owner, Chain.node, Chunk.node]

theorem freedBy_chunks (me : Nat) (c : Chain L) : (freedBy me c).map Prod.snd = c.chunks := by
  induction c generalizing me with
  | base node grown => simp [freedBy, Chain.chunks, Function.comp_def]
  | delta type node child ih => exact ih me
  | merge node child right ihc ihr => simp [freedBy, Chain.chunks, ihc, ihr]
  | remove chunk id | abort chunk => rfl

theorem filter_key_eq {α β : Type} (f : α → β) (key : β → Nat) {xs : List α} {x : α}
    (hnodup : (xs.map fun a => key (f a)).Nodup) (hx : x ∈ xs) :
    (xs.map f).filter (fun b => key b = key (f x)) = [f x] := by
  induction xs with
  | nil => cases hx
  | cons y ys ih =>
    obtain ⟨hnot, hnodup⟩ := List.nodup_cons.mp hnodup
    rw [List.map_cons, List.filter_cons]
    obtain rfl | hx := List.mem_cons.mp hx
    · rw [if_pos (by simp)]
      congr 1
      refine List.filter_eq_nil_iff.mpr ?_
      intro b hb heq
      obtain ⟨a, ha, rfl⟩ := List.mem_map.mp hb
      exact hnot (List.mem_map.mpr ⟨a, ha, by simpa using heq⟩)
    · have hne : key (f y) ≠ key (f x) := fun heq => hnot (List.mem_map.mpr ⟨x, hx, heq.symm⟩)
      rw [if_neg (by simpa using hne)]
      exact ih hnodup hx

theorem release_eq_iff {k : Chunk L} : release me k = ⟨k.owner, .memkind, k.start⟩ ↔ k.owner = me := by
  by_cases h : k.owner = me
  · simp [release, h]
  · simp [release, h]

/-- When all messages have been handled, which they are in the end, every chunk of the chain
has been released once and by its owner where no base node has chunks of two machines. -/
theorem freeEpochDeltaChain_returns_chunks (c : Chain L) (hme : me < L.machines) (hp : c.Placed)
    (hdistinct : (c.chunks.map Chunk.start).Nodup) {s : Sys (Mem L) Unit}
    (hs : (machine L).Reach Machine.free (called me c) s) :
    (machine L).Leads Machine.free (fun s' => s'.mem.msgs = []) s ∧
      (s.mem.msgs = [] →
        ((∀ k ∈ c.chunks, s.mem.releases k = [⟨k.owner, .memkind, k.start⟩]) ↔ c.OneOwner)) := by
  have howed := owed_of_reach hme hs
  refine ⟨leads_handled howed, fun hmsgs => ?_⟩
  have hperm := howed.perm
  rw [hmsgs, List.flatMap_nil, List.append_nil] at hperm
  rw [← freedBy_chunks c.owner, List.map_map] at hdistinct
  -- what is released of a chunk is its one entry in what is due
  have hreleases : ∀ x ∈ freedBy c.owner c, s.mem.releases x.2 = [release x.1 x.2] := by
    intro x hx
    have hfilter := filter_key_eq (fun x : Nat × Chunk L => release x.1 x.2) Release.ptr
      hdistinct hx
    exact List.perm_singleton.mp (hfilter ▸ hperm.filter _)
  rw [← (fits_iff hp).1, ← freedBy_chunks c.owner, List.forall_mem_map]
  refine forall₂_congr fun x hx => ?_
  rw [hreleases x hx, List.cons_eq_cons, and_iff_left rfl]
  exact release_eq_iff

def twoMachines : Layout := ⟨1000, 100, 2⟩

def chunkOf0 : Chunk twoMachines :=
  ⟨0, 1010, 30, by decide, by decide, by decide, by decide⟩

def chunkOf1 : Chunk twoMachines :=
  ⟨1, 1110, 30, by decide, by decide, by decide, by decide⟩

/-- An insert on a merge node, whose two sides come from two machines. -/
def mergedChain : Chain twoMachines :=
  .delta .insert ⟨chunkOf0, 8, by decide⟩
    (.merge ⟨chunkOf1, 8, by decide⟩ (.base ⟨chunkOf0, 16, by decide⟩ [])
      (.delta .split ⟨chunkOf1, 12, by decide⟩ (.base ⟨chunkOf1, 16, by decide⟩ [])))

/-- Machine 1 sends the chain to machine 0, which sends the right side back. -/
theorem mergedChain_run : ((machine twoMachines).runUnder Machine.free [.call 0 0, .call 0 0]
      ⟨(Mem.mk [] []).call 1 mergedChain, fun _ => ()⟩).any fun s => s.mem.msgs.isEmpty := by
  decide +kernel

theorem freeEpochDeltaChain_returns_chunks_mergedChain :
    ∃ s, (machine twoMachines).Reach Machine.free (called 1 mergedChain) s ∧
      s.mem.releases chunkOf0 = [⟨0, .memkind, 1010⟩] ∧
      s.mem.releases chunkOf1 = [⟨1, .memkind, 1110⟩] := by
  obtain ⟨s, hs, hmsgs⟩ := (Option.any_eq_true _ _).mp mergedChain_run
  have hreach : (machine twoMachines).Reach Machine.free (called 1 mergedChain) s :=
    .of_runUnder (.init (show _ = _ from rfl)) hs
  have hplaced : mergedChain.Placed := by
    simp [mergedChain, Chain.Placed, Chain.home]
  have hone : mergedChain.OneOwner := by
    simp [mergedChain, Chain.OneOwner]
  obtain ⟨_, hreleases⟩ :=
    freeEpochDeltaChain_returns_chunks mergedChain (by decide) hplaced (by decide) hreach
  have hall := (hreleases (List.isEmpty_iff.mp hmsgs)).mpr hone
  exact ⟨s, hreach, hall chunkOf0 (by simp [mergedChain, Chain.chunks]),
    hall chunkOf1 (by simp [mergedChain, Chain.chunks])⟩

/-- A base node of machine 0, to whose list machine 1 has added a chunk. -/
def grownChain : Chain twoMachines := .base ⟨chunkOf0, 16, by decide⟩ [chunkOf1]

/-- Machine 0 gives the chunk of machine 1 to the heap of the C library. -/
theorem freeEpochDeltaChain_frees_foreign_chunk :
    grownChain.Placed ∧ (grownChain.chunks.map Chunk.start).Nodup ∧
      ∃ s, (machine twoMachines).Reach Machine.free (called 0 grownChain) s ∧ s.mem.msgs = [] ∧
        chunkOf1 ∈ grownChain.chunks ∧ s.mem.releases chunkOf1 = [⟨0, .heap, 1110⟩] := by
  refine ⟨trivial, by decide, ⟨(Mem.mk [] []).call 0 grownChain, fun _ => ()⟩, .init rfl, ?_, ?_, ?_⟩
  · rfl
  · simp [grownChain, Chain.chunks]
  · decide

end ShmPcc.RemoteGc
