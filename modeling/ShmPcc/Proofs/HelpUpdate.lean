import ShmPcc.Lib.Values
import ShmPcc.Proofs.HelpOutline

/-!
# `HelpUpdate` as a pointer register

Replicas agree with an unlocked global pointer and follow its history in every
run, and whatever the stopped threads left half done, one thread that runs
alone completes it.

Real-time order is another matter. `help_update` returns on a failed
compare-exchange on a replica, the caller drops the result, and `cas_ptr`
reports success with the replica still at the old value (`lostHelp`); for the
same reason `cas_ptr` can fail on the very value the global pointer holds
throughout (`lostHelpFailure`). In every run in which a helper never gives up
on a pending update, `noLostHelp`, both guarantees hold.
-/

namespace ShmPcc.HelpUpdate

open LockedPointer Function Prog

/-! ## The outline, assembled -/

variable {strict : Bool} {N : Nat}

theorem enter_step {t : Nat} {op : Op} {m m' : Mem} (hm : OutlineInv N strict m)
    (he : enter t op m = some m') : OutlineInv N strict m' ∧ Quiet N m m' := by
  cases op with
  | loadPtr =>
    injection he with he
    exact he ▸ ⟨hm, .refl m⟩
  | casPtr oldVal newVal =>
    simp only [enter] at he
    split at he
    · next hnew =>
      injection he with he
      subst he
      have hiss : ∀ v u, m.issuer v = some u → update m.issuer newVal (some t) v = some u := by
        intro v u hv
        rw [update_of_ne, hv]
        intro hvn
        rw [hvn, hnew.2.2] at hv
        cases hv
      refine ⟨⟨⟨hm.1.nodup, hm.1.unlocked, ?_, hm.1.last, hm.1.held, hm.1.sorted,
        hm.1.settled⟩, fun hs => ⟨(hm.2 hs).past, (hm.2 hs).open_⟩⟩, ⟨?_, ?_, hiss, ?_⟩, rfl⟩
      · intro v hv
        obtain ⟨u, hu⟩ := Option.ne_none_iff_exists'.mp (hm.1.issued v hv)
        show update m.issuer newVal (some t) v ≠ none
        rw [hiss v u hu]
        simp
      · exact List.prefix_refl _
      · exact fun _ _ => Nat.le_refl _
      · exact fun _ _ hv => hv
    · cases he

def outline (N : Nat) (strict : Bool) : Outline (obj N) (cond strict) where
  inv := OutlineInv N strict
  rely := Rely N
  guar := Guar N
  post t op m r m' :=
    match op, r with
    | .casPtr oldVal newVal, .cas ok => CasPost N strict oldVal newVal m ok m'
    | .loadPtr, .load v => LoadPost N strict t m v m'
    | _, _ => False
  rely_refl _ := .refl
  rely_trans := fun _ _ _ _ h h' _ => Rely.trans h h'
  guar_refl _ := .refl
  guar_rely htu _ _ hg := hg.rely htu
  enter_ok hm _ he := ⟨(enter_step hm he).1, (enter_step hm he).2.guar⟩
  code_ok := by
    intro t op m m' hm hk he
    have hm' := (enter_step hm he).1
    refine wp_mono (fun r m hi hq => ⟨hi, Guar.refl m, hq⟩) ?_
    cases op with
    | loadPtr => exact wp_map (loadPtr_wp hm')
    | casPtr oldVal newVal =>
      refine wp_map ?_
      simp only [obj, enter] at he
      split at he
      · next hnew =>
        injection he with he
        subst he
        refine casPtr_wp ?_ (hasLock_false_iff.mpr hnew.2.1) hm'
          (update_self ..) ?_
        · intro hs
          subst hs
          exact hk
        · exact fun hin => hm.1.issued newVal hin hnew.2.2
      · cases he

theorem inv_start {m : Mem} (h : Init m) : OutlineInv N strict m := by
  obtain ⟨p, hp, rfl⟩ := h
  have hu := hasLock_false_iff.mpr hp
  have hval : ∀ i, (start p).val i = p := fun _ => clearLock_of_unlocked hu
  have hnew : (start p).newest = p := clearLock_of_unlocked hu
  have hreach : ∀ v, v = p → Reached N (start p) v := by
    intro v hv i _
    rw [hval i, hv]
  refine ⟨⟨List.nodup_singleton p, ?_, ?_, ?_, ?_, ?_, ?_⟩, fun _ => ⟨?_, ?_⟩⟩
  · intro v hv
    rw [List.mem_singleton.mp hv]; exact hu
  · intro v hv
    rw [List.mem_singleton.mp hv]
    simp [start]
  · rw [hnew]; rfl
  · intro i _
    rw [hval i]; exact List.mem_singleton_self p
  · intro i j _ _
    rw [hval i, hval j]
  · intro _ i _
    rw [hval i, hnew]
  · intro v hv _
    exact hreach v (List.mem_singleton.mp hv)
  · intro i _ _
    exact hreach _ (hval i)

variable {c : Config}

theorem holds_of_reach (strict : Bool) (h : (obj N).Reach (cond strict) Init c) :
    (outline N strict).Holds c :=
  (outline N strict).sound (fun _ => inv_start) h

/-! ## The install history is what the global pointer held -/

theorem newest_history (l : List Mem) (hinv : ∀ m ∈ l, Inv N m)
    (hchain : List.IsChain (fun a b => ∃ t, Guar N t a b) l)
    (hhead : ∀ m, l.head? = some m → m.installed = [m.newest]) :
    ∀ m, l.getLast? = some m →
      (l.map Mem.newest).destutter (· ≠ ·) = m.installed := by
  induction l using List.reverseRecOn with
  | nil => intro m hm; cases hm
  | append_singleton l b ih =>
    intro m hm
    rw [List.getLast?_concat, Option.some.injEq] at hm
    subst hm
    rw [List.map_append, List.map_singleton]
    cases hl : l.getLast? with
    | none =>
      rw [List.getLast?_eq_none_iff] at hl
      subst hl
      exact (hhead b rfl).symm
    | some a =>
      have hmap : (l.map Mem.newest).getLast? = some a.newest := by
        rw [List.getLast?_map, hl]; rfl
      obtain ⟨hcl, _, hab⟩ := List.isChain_append.mp hchain
      obtain ⟨t, _, hgrow⟩ := hab a hl b rfl
      have hla : a ∈ l := List.mem_of_getLast? hl
      have ha := hinv a (List.mem_append_left _ hla)
      have hb := hinv b (List.mem_append_right _ (List.mem_singleton_self b))
      have hih := ih (fun m hm => hinv m (List.mem_append_left _ hm)) hcl
        (fun m hm => hhead m (by
          cases l with
          | nil => cases hl
          | cons x xs => exact hm)) a hl
      rw [destutter_snoc hmap, hih]
      have hlb := hb.last
      rcases hgrow with hsame | ⟨v, hv, _⟩
      · rw [hsame, ha.last, Option.some.injEq] at hlb
        rw [if_pos hlb, hsame]
      · rw [hv, List.getLast?_concat, Option.some.injEq] at hlb
        have hne : a.newest ≠ b.newest := by
          intro he
          have hnd := hb.nodup
          rw [hv, hlb, ← he] at hnd
          exact (List.disjoint_of_nodup_append hnd) ha.newest_mem
            (List.mem_singleton_self _)
        rw [if_neg hne, hv, hlb]

theorem globalValues_eq (strict : Bool) (h : (obj N).Reach (cond strict) Init c) :
    globalValues c = c.mem.installed := by
  have H := holds_of_reach strict h
  obtain ⟨pre, hlast⟩ := H.last
  obtain ⟨m, rest, ⟨p, hp, rfl⟩, hc⟩ := h.head
  refine newest_history c.trail (fun m hm => (H.inv m hm).1) H.chain ?_ c.mem ?_
  · intro m hm
    rw [hc, List.head?_cons, Option.some.injEq] at hm
    rw [← hm, Mem.newest, show (start p).globalPtr = p from rfl,
      clearLock_of_unlocked (hasLock_false_iff.mpr hp)]
    rfl
  · rw [hlast, List.getLast?_concat]

theorem noLater_of_rank (hg : globalValues c = c.mem.installed) {a b : Ptr}
    (ha : a ∈ c.mem.installed) (hb : b ∈ c.mem.installed) (hab : c.mem.rank a ≤ c.mem.rank b) :
    NoLater c a b := by
  refine ⟨c.mem.rank a, c.mem.rank b, hab, ?_, ?_⟩
  · rw [hg]; exact List.getElem?_idxOf ha
  · rw [hg]; exact List.getElem?_idxOf hb

theorem evolve_trail (H : (outline N strict).Holds c) {i j : Nat} {a b : Mem} (hij : i ≤ j)
    (hi : c.trail[i]? = some a) (hj : c.trail[j]? = some b) : Evolve N a b :=
  H.evolves (E := Evolve N) .refl (fun ha hb _ => Evolve.trans ha.1 hb.1) (fun _ _ hg => hg.1) hij hi hj

theorem evolve_now (H : (outline N strict).Holds c) {i : Nat} {a : Mem} (hi : c.trail[i]? = some a) :
    Evolve N a c.mem := by
  obtain ⟨pre, hlast⟩ := H.last
  have hlt := (List.getElem?_eq_some_iff.mp hi).1
  refine evolve_trail H (j := pre.length) ?_ hi ?_
  · rw [hlast, List.length_append, List.length_singleton] at hlt
    omega
  · rw [hlast]
    simp

/-! ## Agreement and monotonicity, in every run -/

/-- While the global pointer is unlocked every replica agrees with it, and the
values a replica takes are a subsequence of those the global pointer takes. -/
theorem replicas_follow {N : Nat} {c : Config} (h : (obj N).Reach Cond.free Init c) :
    (hasLock c.mem.globalPtr = false →
      ∀ i < N, clearLock (c.mem.replicaPtrs i) = c.mem.globalPtr) ∧
    ∀ i < N, List.Sublist (replicaValues c i) (globalValues c) := by
  have H := holds_of_reach false h
  have hnow := H.mem_inv.1
  constructor
  · intro hg i hi
    rw [← clearLock_of_unlocked hg]
    exact hnow.settled hg i hi
  · intro i hi
    rw [globalValues_eq false h]
    refine destutter_sublist ?_ ?_
    · intro x hx
      obtain ⟨m, hm, rfl⟩ := List.mem_map.mp hx
      obtain ⟨k, hk⟩ := List.mem_iff_getElem?.mp hm
      exact (evolve_now H hk).mem ((H.inv m hm).1.held i hi)
    · rw [List.pairwise_map, List.pairwise_iff_getElem]
      intro a b ha hb hab
      have hga : c.trail[a]? = some c.trail[a] := List.getElem?_eq_getElem ha
      have hgb : c.trail[b]? = some c.trail[b] := List.getElem?_eq_getElem hb
      have hfw := (evolve_trail H (Nat.le_of_lt hab) hga hgb).forward i hi
      have ia := (H.inv _ (List.getElem_mem ha)).1
      have ib := (H.inv _ (List.getElem_mem hb)).1
      have en := evolve_now H hgb
      rw [← en.rank_eq ((evolve_trail H (Nat.le_of_lt hab) hga hgb).mem (ia.held i hi)),
        ← en.rank_eq (ib.held i hi)] at hfw
      exact hfw

/-- Two updates and two loads of one replica: the second writer gives up on the
replica and reports success. -/
def lostHelp : List (Act Op) :=
  Act.call 1 (Op.casPtr 0x10 0x20) :: List.replicate 8 (Act.run 1) ++
  -- the reader has loaded its replica, locked, and is about to clear the bit
  [Act.call 0 Op.loadPtr, Act.run 0] ++
  -- the next writer has loaded the replica and checked the global pointer
  Act.call 2 (Op.casPtr 0x20 0x30) :: List.replicate 5 (Act.run 2) ++
  List.replicate 2 (Act.run 0) ++ List.replicate 3 (Act.run 2) ++
  Act.call 0 Op.loadPtr :: List.replicate 2 (Act.run 0)

theorem lostHelp_run : ((obj 1).runUnder Cond.free lostHelp (Cfg.init (start 0x10))).map
    (fun c => (c.hist, globalValues c)) = some
      ([⟨1, .casPtr 0x10 0x20, .cas true, 1, 9⟩, ⟨0, .loadPtr, .load 0x20, 10, 19⟩,
        ⟨2, .casPtr 0x20 0x30, .cas true, 12, 22⟩, ⟨0, .loadPtr, .load 0x20, 23, 25⟩],
      [0x10, 0x20, 0x30]) := by decide

theorem lostHelp_reach : ∃ c, (obj 1).Reach Cond.free Init c ∧
    c.hist = [⟨1, .casPtr 0x10 0x20, .cas true, 1, 9⟩, ⟨0, .loadPtr, .load 0x20, 10, 19⟩,
      ⟨2, .casPtr 0x20 0x30, .cas true, 12, 22⟩, ⟨0, .loadPtr, .load 0x20, 23, 25⟩] ∧
    globalValues c = [0x10, 0x20, 0x30] := by
  obtain ⟨c, hc, hv⟩ := Option.map_eq_some_iff.mp lostHelp_run
  injection hv with hh hg
  exact ⟨c, .of_runUnder (.init ⟨0x10, by decide, rfl⟩) hc, hh, hg⟩

theorem replicas_follow_lostHelp : ∃ c : Config, c.hist.length = 4 ∧
    ∀ i < 1, List.Sublist (replicaValues c i) (globalValues c) := by
  obtain ⟨c, hc, hh, _⟩ := lostHelp_reach
  exact ⟨c, by rw [hh]; rfl, (replicas_follow hc).2⟩

/-! ## Real-time order, where no helper gives up -/

theorem fresh_of_holds (H : (outline N true).Holds c) (hg : globalValues c = c.mem.installed)
    {a v : Ptr} {i : Nat} {k s e : Nat} {mk ms me : Mem} (hk : c.trail[k]? = some mk)
    (hs : c.trail[s]? = some ms) (he : c.trail[e]? = some me) (hks : k < s) (hse : s < e)
    (ha : a ∈ mk.installed) (hreach : Reached N mk a) (hv : LoadPost N true i ms v me) :
    NoLater c a v := by
  obtain ⟨hi, hin, hle, _⟩ := hv
  have ik := (H.inv mk (List.mem_of_getElem? hk)).1
  have is := (H.inv ms (List.mem_of_getElem? hs)).1
  have eks := evolve_trail H (Nat.le_of_lt hks) hk hs
  have ese := evolve_trail H (Nat.le_of_lt hse) hs he
  have een := evolve_now H he
  have hstart : ms.rank a ≤ ms.rank (ms.val i) := eks.reached ik ha hreach i hi
  rw [← ese.rank_eq (eks.mem ha), ← ese.rank_eq (is.held i hi)] at hstart
  have hend : me.rank a ≤ me.rank v := Nat.le_trans hstart hle
  have hae := ese.mem (eks.mem ha)
  rw [← een.rank_eq hae, ← een.rank_eq hin] at hend
  exact noLater_of_rank hg (een.mem hae) (een.mem hin) hend

/-- In a run in which `help_update` never gives up on a pending update, the
pointer is a linearizable register. -/
theorem linearizable_of_noLostHelp {N : Nat} {c : Config}
    (h : (obj N).Reach noLostHelp Init c) : ReadsFresh c ∧ ReadsOrdered c := by
  have H := holds_of_reach true h
  have hg := globalValues_eq true h
  constructor
  · intro w hw r hr oldVal newVal v hop hret hrop hrret hlt
    obtain ⟨wm, wm', _, hw1, _, hwp⟩ := H.hist w hw
    obtain ⟨rm, rm', hr0, hr1, hrlt, hrp⟩ := H.hist r hr
    simp only [outline, hop, hret] at hwp
    simp only [outline, hrop, hrret] at hrp
    obtain ⟨hin, hh⟩ := hwp.1 rfl
    exact fresh_of_holds H hg hw1 hr0 hr1 hlt hrlt hin (hh rfl).1 hrp
  · intro r hr s hs v w hop hret hsop hsret hlt
    obtain ⟨rm, rm', _, hr1, _, hrp⟩ := H.hist r hr
    obtain ⟨sm, sm', hs0, hs1, hslt, hsp⟩ := H.hist s hs
    simp only [outline, hop, hret] at hrp
    simp only [outline, hsop, hsret] at hsp
    exact fresh_of_holds H hg hr1 hs0 hs1 hlt hslt hrp.2.1 (hrp.2.2.2 rfl) hsp

theorem NoLater.idxOf_le (hn : (globalValues c).Nodup) {a b : Ptr} (h : NoLater c a b) :
    (globalValues c).idxOf a ≤ (globalValues c).idxOf b := by
  obtain ⟨i, j, hij, hi, hj⟩ := h
  obtain ⟨hil, rfl⟩ := List.getElem?_eq_some_iff.mp hi
  obtain ⟨hjl, rfl⟩ := List.getElem?_eq_some_iff.mp hj
  rw [hn.idxOf_getElem i hil, hn.idxOf_getElem j hjl]
  exact hij

/-- The restriction is needed: a load after a successful `cas_ptr(0x20, 0x30)`
returns `0x20`. The writer gave up on replica 0 when its reader cleared the
lock bit of `0x20` between the writer's load and its compare-exchange. -/
theorem lost_help_stale_read : ¬ ∀ (N : Nat) (c : Config), 1 ≤ N →
    (obj N).Reach Cond.free Init c → ReadsFresh c ∧ ReadsOrdered c := by
  intro h
  obtain ⟨c, hc, hh, hg⟩ := lostHelp_reach
  have hf := (h 1 c (Nat.le_refl 1) hc).1 ⟨2, .casPtr 0x20 0x30, .cas true, 12, 22⟩
    (by rw [hh]; decide) ⟨0, .loadPtr, .load 0x20, 23, 25⟩ (by rw [hh]; decide)
    0x20 0x30 0x20 rfl rfl rfl rfl (by decide)
  have hle := hf.idxOf_le (by rw [hg]; decide)
  rw [hg] at hle
  exact absurd hle (by decide)

instance (t : Nat) (op : Op) (m : Mem) : Decidable (noLostHelp.atCall t op m) :=
  match op with
  | .casPtr oldVal _ => inferInstanceAs (Decidable (hasLock oldVal = false))
  | .loadPtr => .isTrue trivial

instance (l : Site) (m : Mem) : Decidable (noLostHelp.atStep l m) :=
  match l with
  | .helpReload i expected => inferInstanceAs (Decidable
      (m.replicaPtrs i ≠ withLock expected → m.globalPtr ≠ withLock expected))
  | .globalLoad | .globalInstall | .globalUnlock | .replicaLoad _ | .replicaCas _
  | .readerReload _ => .isTrue trivial

/-- Two writers at replica 0 at once: the second one's compare-exchange fails,
and it finds the replica where it wanted it. -/
def bothHelp : List (Act Op) :=
  Act.call 1 (Op.casPtr 0x10 0x20) :: List.replicate 5 (Act.run 1) ++
  Act.call 2 (Op.casPtr 0x10 0x30) :: List.replicate 4 (Act.run 2) ++
  List.replicate 2 (Act.run 1) ++ List.replicate 5 (Act.run 2) ++ [Act.run 1] ++
  Act.call 0 Op.loadPtr :: List.replicate 3 (Act.run 0)

theorem bothHelp_run : ((obj 1).runUnder noLostHelp bothHelp (Cfg.init (start 0x10))).map
    (fun c => c.hist) = some
      [⟨2, .casPtr 0x10 0x30, .cas false, 7, 18⟩, ⟨1, .casPtr 0x10 0x20, .cas true, 1, 19⟩,
       ⟨0, .loadPtr, .load 0x20, 20, 23⟩] := by decide

theorem bothHelp_reach : ∃ c, (obj 1).Reach noLostHelp Init c ∧ c.hist.length = 3 := by
  obtain ⟨c, hc, hh⟩ := Option.map_eq_some_iff.mp bothHelp_run
  exact ⟨c, .of_runUnder (.init ⟨0x10, by decide, rfl⟩) hc, by rw [hh]; rfl⟩

theorem linearizable_bothHelp : ∃ c, (obj 1).Reach noLostHelp Init c ∧
    c.hist.length = 3 ∧ ReadsFresh c ∧ ReadsOrdered c := by
  obtain ⟨c, hc, hh⟩ := bothHelp_reach
  exact ⟨c, hc, hh, linearizable_of_noLostHelp hc⟩

/-- In such a run `cas_ptr` has no spurious failure either. -/
theorem no_spurious_failure_of_noLostHelp {N : Nat} {c : Config}
    (h : (obj N).Reach noLostHelp Init c) : FailuresJustified c := by
  have H := holds_of_reach true h
  intro w hw oldVal newVal hop hret
  obtain ⟨m₀, m₁, h0, h1, hlt, hp⟩ := H.hist w hw
  simp only [outline, hop, hret] at hp
  by_cases hn : clearLock m₀.globalPtr = oldVal
  · exact ⟨w.stop, m₁, Nat.le_of_lt hlt, Nat.le_refl _, h1, hp.2 rfl rfl hn⟩
  · exact ⟨w.start, m₀, Nat.le_refl _, Nat.le_of_lt hlt, h0, hn⟩

theorem no_spurious_failure_bothHelp : ∃ c, (obj 1).Reach noLostHelp Init c ∧
    c.hist.length = 3 ∧ FailuresJustified c := by
  obtain ⟨c, hc, hh⟩ := bothHelp_reach
  exact ⟨c, hc, hh, no_spurious_failure_of_noLostHelp hc⟩

/-- A writer has installed `0x30` and stopped; thread 3 helps it and gives up
at the same place as in `lostHelp`. -/
def lostHelpFailure : List (Act Op) :=
  Act.call 1 (Op.casPtr 0x10 0x20) :: List.replicate 8 (Act.run 1) ++
  [Act.call 0 Op.loadPtr, Act.run 0] ++
  Act.call 2 (Op.casPtr 0x20 0x30) :: List.replicate 2 (Act.run 2) ++
  Act.call 3 (Op.casPtr 0x30 0x40) :: List.replicate 4 (Act.run 3) ++ [Act.run 0] ++
  List.replicate 4 (Act.run 3)

theorem lostHelpFailure_run :
    ((obj 1).runUnder Cond.free lostHelpFailure (Cfg.init (start 0x10))).map
      (fun c => (c.hist, c.trail.map fun m => clearLock m.globalPtr)) = some
      ([⟨1, .casPtr 0x10 0x20, .cas true, 1, 9⟩, ⟨3, .casPtr 0x30 0x40, .cas false, 15, 24⟩],
       List.replicate 3 0x10 ++ List.replicate 11 0x20 ++ List.replicate 11 0x30) := by decide

/-- The restriction is needed here too: `cas_ptr(0x30, 0x40)` fails while the
global pointer holds `0x30` from the call to the return. -/
theorem lost_help_spurious_failure : ¬ ∀ (N : Nat) (c : Config), 1 ≤ N →
    (obj N).Reach Cond.free Init c → FailuresJustified c := by
  intro h
  obtain ⟨c, hc, hv⟩ := Option.map_eq_some_iff.mp lostHelpFailure_run
  injection hv with hh hg
  have hreach : (obj 1).Reach Cond.free Init c :=
    .of_runUnder (.init ⟨0x10, by decide, rfl⟩) hc
  obtain ⟨τ, m, hlo, hhi, hm, hne⟩ := h 1 c (Nat.le_refl 1) hreach
    ⟨3, .casPtr 0x30 0x40, .cas false, 15, 24⟩ (by rw [hh]; decide) 0x30 0x40 rfl rfl
  have hval : (c.trail.map fun m => clearLock m.globalPtr)[τ]? =
      some (clearLock m.globalPtr) := by rw [List.getElem?_map, hm]; rfl
  have hall : ∀ τ < 25, 15 ≤ τ → (List.replicate 3 0x10 ++ List.replicate 11 0x20 ++
      List.replicate 11 0x30 : List Ptr)[τ]? = some 0x30 := by decide
  rw [hg, hall τ (Nat.lt_succ_of_le hhi) hlo] at hval
  exact hne (Option.some.inj hval).symm

/-! ## One thread alone completes whatever is pending -/

theorem helpLoop_exec {A : Ptr} (hA : hasLock A = false) : ∀ (n i : Nat) (m : Mem),
    m.globalPtr = withLock A → ∃ m', (helpLoop A n i).exec m = some (true, m') ∧
      m'.globalPtr = A ∧
      (∀ j, i ≤ j → j < i + n → clearLock (m'.replicaPtrs j) = A) ∧
      ∀ j < i, m'.replicaPtrs j = m.replicaPtrs j := by
  intro n
  induction n with
  | zero =>
    intro i m hg
    refine ⟨{ m with globalPtr := A }, ?_, rfl, ?_, fun _ _ => rfl⟩
    · simp [helpLoop, casUnlock, hg]
    · intro j hj hj'
      omega
  | succ n ih =>
    intro i m hg
    have hfrom : fromLocked (withLock A) = A := by
      rw [fromLocked_eq, clearLock_withLock hA]
    by_cases hr : fromLocked (m.replicaPtrs i) = A
    · obtain ⟨m', hx, hgl, hin, hlow⟩ := ih (i + 1) m hg
      refine ⟨m', ?_, hgl, ?_, fun j hj => hlow j (by omega)⟩
      · simp only [helpLoop, loadGlobal, loadReplica, exec_bind, exec_read,
          Option.bind_some, hg, hasLock_withLock, Bool.true_eq_false, and_false, hr, ne_eq,
          not_true, if_false]
        exact hx
      · intro j hj hj'
        rcases Nat.eq_or_lt_of_le hj with rfl | hj
        · rw [hlow i (by omega), ← fromLocked_eq, hr]
        · exact hin j hj (by omega)
    · obtain ⟨m', hx, hgl, hin, hlow⟩ := ih (i + 1)
        ⟨withLock A, update m.replicaPtrs i (withLock A), m.installed, m.issuer⟩ rfl
      refine ⟨m', ?_, hgl, ?_, ?_⟩
      · simp only [helpLoop, loadGlobal, loadReplica, currentCas, casReplica,
          exec_bind, exec_read, exec_rmw, Option.bind_some, hg,
          hasLock_withLock, Bool.true_eq_false, and_false, hr, ne_eq, not_false_eq_true,
          if_true, hfrom, not_true, if_false, beq_self_eq_true, pure_eq, exec_ret]
        exact hx
      · intro j hj hj'
        rcases Nat.eq_or_lt_of_le hj with rfl | hj
        · rw [hlow i (by omega)]
          dsimp only
          rw [update_self, clearLock_withLock hA]
        · exact hin j hj (by omega)
      · intro j hj
        rw [hlow j (by omega)]
        dsimp only
        rw [update_of_ne (by omega)]

theorem helpUpdate_exec (hN : 0 < N) {A : Ptr} (hA : hasLock A = false) {m : Mem}
    (hg : m.globalPtr = withLock A) : ∃ m', (helpUpdate N A 0).exec m = some (true, m') ∧
      m'.globalPtr = A ∧ ∀ i < N, clearLock (m'.replicaPtrs i) = A := by
  obtain ⟨m', hx, hgl, hin, _⟩ := helpLoop_exec hA N 0 m hg
  refine ⟨m', ?_, hgl, fun i hi => hin i (Nat.zero_le i) (by omega)⟩
  rw [helpUpdate, if_pos hN]
  exact hx

theorem casPtr_exec (hN : 0 < N) {A B : Ptr} (hA : hasLock A = false) (hB : hasLock B = false)
    {m : Mem} (hg : m.globalPtr = withLock A) :
    ∃ m', (casPtr N A B).exec m = some (true, m') ∧
      m'.globalPtr = B ∧ ∀ i < N, clearLock (m'.replicaPtrs i) = B := by
  obtain ⟨m₁, hx₁, hg₁, _⟩ := helpUpdate_exec hN hA hg
  obtain ⟨m₂, hx₂, hg₂, hr₂⟩ := helpUpdate_exec (m := { m₁ with
    globalPtr := withLock B, installed := m₁.installed ++ [B] }) hN hB rfl
  refine ⟨m₂, ?_, hg₂, hr₂⟩
  simp only [casPtr, loadGlobal, casInstall, exec_bind, exec_read, exec_rmw,
    Option.bind_some, hg, hasLock_withLock, if_true, clearLock_withLock hA, hx₁, hg₁,
    beq_self_eq_true, hx₂, pure_eq, exec_ret]

/-- Whatever half-done state a run leaves behind, `help_update(A, 0)` alone
completes the pending update of `A`, and `cas_ptr(A, B)` by any idle thread
alone completes it, succeeds, and completes its own. -/
theorem completed_alone {N : Nat} {c : Config} (_h : (obj N).Reach Cond.free Init c)
    (hN : 1 ≤ N) {A : Ptr} (hA : hasLock A = false) (hg : c.mem.globalPtr = withLock A) :
    (∃ m, (helpUpdate N A 0).exec c.mem = some (true, m) ∧ m.globalPtr = A ∧
      ∀ i < N, clearLock (m.replicaPtrs i) = A) ∧
    ∀ (t : Nat) (B : Ptr), c.thr t = none → B ≠ 0#64 → B &&& 1#64 = 0#64 →
      c.mem.issuer B = none →
      ∃ n c', (obj N).runUnder Cond.free
          (.call t (.casPtr A B) :: List.replicate n (.run t)) c = some c' ∧
        c'.hist = c.hist ++
          [⟨t, .casPtr A B, .cas true, c.trail.length, c'.trail.length - 1⟩] ∧
        c'.mem.globalPtr = B ∧ ∀ i < N, clearLock (c'.mem.replicaPtrs i) = B := by
  refine ⟨helpUpdate_exec hN hA hg, ?_⟩
  intro t B ht h0 heven hiss
  have henter : (obj N).enter t (.casPtr A B) c.mem =
      some ⟨c.mem.globalPtr, c.mem.replicaPtrs, c.mem.installed,
        update c.mem.issuer B (some t)⟩ := by
    simp only [obj, enter]
    rw [if_pos ⟨h0, heven, hiss⟩]
  obtain ⟨m', hx, hgl, hrep⟩ := casPtr_exec (m := ⟨c.mem.globalPtr, c.mem.replicaPtrs,
    c.mem.installed, update c.mem.issuer B (some t)⟩) hN hA
    (hasLock_false_iff.mpr heven) hg
  have hcode : ((obj N).code t (.casPtr A B)).exec ⟨c.mem.globalPtr, c.mem.replicaPtrs,
      c.mem.installed, update c.mem.issuer B (some t)⟩ = some (.cas true, m') := by
    simp only [obj, code, exec_bind, hx, Option.bind_some, pure_eq, exec_ret]
  obtain ⟨n, c', hrun, hmem, _, hhist⟩ := Obj.call_alone ht henter hcode
  refine ⟨n, c', hrun, hhist, ?_, ?_⟩
  · rw [hmem]; exact hgl
  · rw [hmem]; exact hrep

/-- A writer that stopped right after its install; `0x20` is pending. -/
def stalled : List (Act Op) := .call 1 (.casPtr 0x10 0x20) :: List.replicate 2 (.run 1)

theorem stalled_run : ((obj 2).runUnder Cond.free stalled (Cfg.init (start 0x10))).map
    (fun c => (c.mem.globalPtr, c.mem.issuer 0x30, (c.thr 0).isNone)) =
      some (0x21, none, true) := by decide

theorem completed_alone_stalled : ∃ c c' : Config, (obj 2).Reach Cond.free Init c ∧
    c.mem.globalPtr = 0x21 ∧ c'.mem.globalPtr = 0x30 ∧ ∃ n, (obj 2).runUnder Cond.free
      (.call 0 (.casPtr 0x20 0x30) :: List.replicate n (.run 0)) c = some c' := by
  obtain ⟨c, hc, hv⟩ := Option.map_eq_some_iff.mp stalled_run
  injection hv with hg hv
  injection hv with hi ht
  have hreach : (obj 2).Reach Cond.free Init c :=
    .of_runUnder (.init ⟨0x10, by decide, rfl⟩) hc
  have hdone := completed_alone hreach (by decide) (A := 0x20) (by decide)
    (hg.trans (by decide))
  obtain ⟨n, c', hrun, _, hglob, _⟩ := hdone.2 0 0x30 (Option.isNone_iff_eq_none.mp ht)
    (by decide) (by decide) hi
  exact ⟨c, c', hreach, hg, hglob, n, hrun⟩

end ShmPcc.HelpUpdate
