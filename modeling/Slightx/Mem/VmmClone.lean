/-
  File:      Slightx/Mem/VmmClone.lean
  Subject:   `vmm_clone_page_map`.

  Source: kernel/mem/vmm.c.

  The recursion copies the entries without the user bit and the large ones, and takes a frame for
  every other one. It does not look at the level before: the entry of a user page of 4 KB is taken
  for a table, and the switch over the levels panics.

  * `Cloned` -- a table and its copy, all the way down
  * `ends_vmmCloneTables` -- the recursion makes one, or the frames do not suffice, or it came by a
    user page of 4 KB
  * `cloned_walk` -- the copy leads every walk where the source does
-/
import Mathlib.Algebra.GroupWithZero.Nat
import Slightx.Mem.VmmDestroy
import Slightx.Mem.VmmPerms

namespace Slightx

open Lib

/-! ## 1. The calls -/

/-- The body of the loop of `vmm_clone_tables`; `below` is its call for the child. -/
def cloneEntry (below : Uptr → Uptr → Prog Fault VmmState Unit) (dst src : Uptr) (i : Nat) :
    Prog Fault VmmState Unit := do
  let pte ← pdLoad src i
  if !ptePresent pte then pure ()
  else if pte &&& MM_PT_FLAG_USER = 0 then pdStore dst i pte
  else if pteLarge pte then pdStore dst i pte
  else do
    let child ← pmmAllocFrame
    pdStore dst i (child ||| MM_PT_USER_TABLE_FLAGS)
    below child (pteP2v pte)

/-- Levels by their number, PML1 is 1. Below a PML1 there is the panic of the switch. -/
def vmmCloneTables : (level : Nat) → (dst src : Uptr) → Prog Fault VmmState Unit
  | 0, _, _ => panic "[vmm] vmm_clone_tables(): invalid page map level"
  | level + 1, dst, src => forUp 512 (cloneEntry (vmmCloneTables level) dst src)

def vmmClonePageMap (src : PageMap) : Prog Fault VmmState PageMap := do
  let directory ← pmmAllocFrame
  vmmCloneTables src.level.num directory src.directory
  return { level := src.level, directory }

/-! ## 2. What the recursion comes by -/

/-- No entry of a table of level 1 is taken for a table. -/
def NoPage (m : Mem) : (level : Nat) → (tbl : Uptr) → Prop
  | 0, _ => False
  | level + 1, tbl => ∀ i, i < 512 → pteUserTable (pteAt m tbl i) = true →
      NoPage m level (pteP2v (pteAt m tbl i))

/-- The frames taken for an entry, where the table behind it takes `n`. -/
def entryFrames (pte : U64) (n : Nat) : Nat := if pteUserTable pte then n + 1 else 0

/-- The frames `vmm_clone_tables` takes. -/
def cloneFrames (m : Mem) : (level : Nat) → (tbl : Uptr) → Nat
  | 0, _ => 0
  | level + 1, tbl => ((List.range 512).map fun i =>
      entryFrames (pteAt m tbl i) (cloneFrames m level (pteP2v (pteAt m tbl i)))).sum

/-- The frames taken for the first `n` entries of a table of level `L + 1`. -/
def framesUpTo (m : Mem) (L : Nat) (t : Uptr) (n : Nat) : Nat :=
  ((List.range n).map fun i =>
    entryFrames (pteAt m t i) (cloneFrames m L (pteP2v (pteAt m t i)))).sum

section Frames

variable {m : Mem} {L n : Nat} {t : Uptr}

theorem framesUpTo_succ : framesUpTo m L t (n + 1) = framesUpTo m L t n +
    entryFrames (pteAt m t n) (cloneFrames m L (pteP2v (pteAt m t n))) := by
  unfold framesUpTo
  rw [List.range_succ, List.map_append, List.sum_append, List.map_singleton, List.sum_singleton]

theorem framesUpTo_le (hn : n ≤ 512) : framesUpTo m L t n ≤ cloneFrames m (L + 1) t := by
  obtain ⟨k, hk⟩ := Nat.exists_eq_add_of_le hn
  show _ ≤ framesUpTo m L t 512
  unfold framesUpTo
  rw [hk, List.range_add, List.map_append, List.sum_append]
  exact Nat.le_add_right _ _

end Frames

/-! ## 3. Tables and their copies -/

/-- What becomes of an entry without the user bit, or of a large one. -/
def copyPte (pte : U64) : U64 := if ptePresent pte then pte else 0

/-- Entry `e'` is the copy of `e`; `below` relates the tables behind them. -/
def EntryCloned (own : Uptr → Option (Nat × Nat)) (below : Uptr → Uptr → Prop) (e' e : U64) :
    Prop :=
  if pteUserTable e then
    ∃ v, FrameOk v ∧ own v = none ∧ e' = v ||| MM_PT_USER_TABLE_FLAGS ∧ below v (pteP2v e)
  else e' = copyPte e

/-- Table `c` is the copy of table `t` of level `L`, all the way down. The tables of `own` were
    there before, and their entries are read from `m₀`. -/
def Cloned (own own' : Uptr → Option (Nat × Nat)) (m₀ m : Mem) :
    (L : Nat) → (p : Nat) → (c t : Uptr) → Prop
  | 0, _, _, _ => False
  | L + 1, p, c, t => own' c = some (L + 1, p) ∧ own t = some (L + 1, p) ∧ ∀ i, i < 512 →
      EntryCloned own (Cloned own own' m₀ m L (p * 512 + i)) (pteAt m c i) (pteAt m₀ t i)

section Cloned

variable {own own' own'' : Uptr → Option (Nat × Nat)} {m₀ m m' : Mem} {L p : Nat} {c t : Uptr}
  {below below' : Uptr → Uptr → Prop} {e e' : U64}

theorem entryCloned_mono (h : EntryCloned own below e' e) (hb : ∀ v u, below v u → below' v u) :
    EntryCloned own below' e' e := by
  unfold EntryCloned at h ⊢
  split
  · rename_i hu
    rw [if_pos hu] at h
    obtain ⟨v, hv, hnone, he, hbelow⟩ := h
    exact ⟨v, hv, hnone, he, hb _ _ hbelow⟩
  · rename_i hu
    rwa [if_neg hu] at h

theorem cloned_labels (h : Cloned own own' m₀ m L p c t) :
    own' c = some (L, p) ∧ own t = some (L, p) := by
  cases L with
  | zero => exact h.elim
  | succ L => exact ⟨h.1, h.2.1⟩

/-- The copy depends on tables of its own level and below. -/
theorem cloned_congr (h : Cloned own own' m₀ m L p c t)
    (hkeep : ∀ u M q, own' u = some (M, q) → own'' u = some (M, q))
    (hsame : ∀ u M q, own' u = some (M, q) → M ≤ L → ∀ j, j < 512 → pteAt m' u j = pteAt m u j) :
    Cloned own own'' m₀ m' L p c t := by
  induction L generalizing p c t with
  | zero => exact h
  | succ L ih =>
      obtain ⟨hc, ht, hentries⟩ := h
      refine ⟨hkeep _ _ _ hc, ht, fun i hi => ?_⟩
      rw [hsame c _ _ hc (Nat.le_refl _) i hi]
      exact entryCloned_mono (hentries i hi) fun v u hvu =>
        ih hvu fun u M q hu hM => hsame u M q hu (by omega)

end Cloned

/-! ## 4. What the recursion does -/

section Clone

variable {own own₁ own' : Uptr → Option (Nat × Nat)} {s₀ s s' : VmmState} {t c f : Uptr}
  {K L p i n : Nat} {rest : List Uptr} {Q : Unit → VmmState → Prop} {E : Fault → Prop}

/-- **A free frame becomes an empty table** of any label. -/
theorem grow_fresh (h : VmmInv own s) (hfree : s.free = c :: rest) (L p : Nat) :
    Grow own (Function.update own c (some (L, p))) s (s.taken c rest) := by
  have hcm : c ∈ s.free := by rw [hfree]; exact List.mem_cons_self
  obtain ⟨hfc, hc⟩ := h.free c hcm
  have hnd := h.nodup
  rw [hfree, List.nodup_cons] at hnd
  have hknown : ∀ u l, own u = some l → u ≠ c := by
    intro u l hu huc
    rw [huc, hc] at hu
    cases hu
  have hkeep : ∀ u l, own u = some l → Function.update own c (some (L, p)) u = some l :=
    fun u l hu => by rw [Function.update_of_ne (hknown u l hu)]; exact hu
  -- an entry is 0, or that of an old table
  have hentry : ∀ u M q j, Function.update own c (some (L, p)) u = some (M, q) → j < 512 →
      pteAt (s.taken c rest).mem u j = 0 ∨
        own u = some (M, q) ∧ pteAt (s.taken c rest).mem u j = pteAt s.mem u j := by
    intro u M q j hu hj
    by_cases huc : u = c
    · rw [huc]
      exact Or.inl ((pteAt_fill hfc hfc hj).trans (if_pos rfl))
    · rw [Function.update_of_ne huc] at hu
      exact Or.inr ⟨hu, (pteAt_fill hfc (h.frame u M q hu) hj).trans (if_neg huc)⟩
  refine ⟨⟨fun u M q j v g hu hj hk => ?_, fun u M q hu => ?_, fun u M q j hu hj => ?_,
    fun g hg => ?_, hnd.2⟩, fun u M q hu => hkeep u _ hu, ?_, fun u hu => ?_, ?_⟩
  · rcases hentry u M q j hu hj with h0 | ⟨hold, hsame⟩
    · rw [h0] at hk
      exact absurd (pageKind_next hk).1 (by decide)
    · rw [hsame] at hk
      obtain ⟨N, hN, hv⟩ := h.labelled u M q j v g hold hj hk
      exact ⟨N, hN, hkeep v _ hv⟩
  · by_cases huc : u = c
    · rw [huc]
      exact hfc
    · rw [Function.update_of_ne huc] at hu
      exact h.frame u M q hu
  · rcases hentry u M q j hu hj with h0 | ⟨hold, hsame⟩
    · rw [h0]
      exact entryOk_zero
    · rw [hsame]
      exact h.entries u M q j hold hj
  · have hne : g ≠ c := fun heq => hnd.1 (heq ▸ hg)
    obtain ⟨hfg, hnone⟩ := h.free g (by rw [hfree]; exact List.mem_cons_of_mem _ hg)
    exact ⟨hfg, by rw [Function.update_of_ne hne]; exact hnone⟩
  · rw [hfree]
    exact List.suffix_cons c rest
  · by_cases huc : u = c
    · rw [huc]
      exact Or.inr hcm
    · rw [Function.update_of_ne huc] at hu
      exact Or.inl hu
  · refine sameOff_fill fun x hlo hhi => ⟨c, ?_, hlo, hhi⟩
    rw [Function.update_self]
    exact Option.some_ne_none _

end Clone

/-- The state while tables are copied: those of `own` are as they were in `s₀`. -/
structure Cloning (own own₁ : Uptr → Option (Nat × Nat)) (s₀ s : VmmState) : Prop where
  grow : Grow own own₁ s₀ s
  same : ∀ u, own u ≠ none → ∀ j, j < 512 → pteAt s.mem u j = pteAt s₀.mem u j

/-- From `s` to `s'` table `t` was copied to table `c`, which was empty. -/
structure TableCloned (own own₁ own' : Uptr → Option (Nat × Nat)) (s₀ s s' : VmmState)
    (L p : Nat) (c t : Uptr) : Prop where
  cloning : Cloning own own' s₀ s'
  keep : ∀ u M q, own₁ u = some (M, q) → own' u = some (M, q)
  off : ∀ u, own₁ u ≠ none → u ≠ c → ∀ j, j < 512 → pteAt s'.mem u j = pteAt s.mem u j
  cloned : Cloned own own' s₀.mem s'.mem L p c t
  frames : s.free.length = s'.free.length + cloneFrames s₀.mem L t

/-- From `s` to `s'` the first `n` entries of table `t` of level `L + 1` were. -/
structure Filling (own own₁ own' : Uptr → Option (Nat × Nat)) (s₀ s s' : VmmState) (L p : Nat)
    (c t : Uptr) (n : Nat) : Prop where
  cloning : Cloning own own' s₀ s'
  keep : ∀ u M q, own₁ u = some (M, q) → own' u = some (M, q)
  off : ∀ u, own₁ u ≠ none → u ≠ c → ∀ j, j < 512 → pteAt s'.mem u j = pteAt s.mem u j
  done : ∀ i, i < n → EntryCloned own (Cloned own own' s₀.mem s'.mem L (p * 512 + i))
    (pteAt s'.mem c i) (pteAt s₀.mem t i)
  todo : ∀ j, n ≤ j → j < 512 → pteAt s'.mem c j = 0
  frames : s.free.length = s'.free.length + framesUpTo s₀.mem L t n

/-- Why the recursion stops. -/
def CloneStops (s₀ s : VmmState) (L : Nat) (t : Uptr) : Prop :=
  s.free.length < cloneFrames s₀.mem L t ∨ ¬ NoPage s₀.mem L t

section Filling

variable {own own₁ own₂ own' : Uptr → Option (Nat × Nat)} {s₀ s s' st : VmmState} {t c f : Uptr}
  {L p n : Nat} {rest : List Uptr} {below : Uptr → Uptr → Prog Fault VmmState Unit}

theorem filling_nil (h : Cloning own own₁ s₀ s) (hempty : ∀ j, j < 512 → pteAt s.mem c j = 0) :
    Filling own own₁ own₁ s₀ s s L p c t 0 :=
  ⟨h, fun _ _ _ hu => hu, fun _ _ _ _ _ => rfl, fun _ hi => absurd hi (Nat.not_lt_zero _),
    fun j _ hj => hempty j hj, rfl⟩

theorem tableCloned_full (hc : own₁ c = some (L + 1, p)) (ht : own t = some (L + 1, p))
    (h : Filling own own₁ own' s₀ s s' L p c t 512) :
    TableCloned own own₁ own' s₀ s s' (L + 1) p c t :=
  ⟨h.cloning, h.keep, h.off, ⟨h.keep _ _ _ hc, ht, h.done⟩, h.frames⟩

theorem framesUpTo_other (he : pteUserTable (pteAt s₀.mem t n) = false) :
    framesUpTo s₀.mem L t (n + 1) = framesUpTo s₀.mem L t n := by
  rw [framesUpTo_succ, entryFrames, he, if_neg (by decide), Nat.add_zero]

theorem framesUpTo_user (he : pteUserTable (pteAt s₀.mem t n) = true) :
    framesUpTo s₀.mem L t (n + 1) = framesUpTo s₀.mem L t n +
      (cloneFrames s₀.mem L (pteP2v (pteAt s₀.mem t n)) + 1) := by
  rw [framesUpTo_succ, entryFrames, he, if_pos rfl]

/-- An entry that is not there. -/
theorem filling_absent (hn : n < 512) (h : Filling own own₁ own' s₀ s st L p c t n)
    (hp : ptePresent (pteAt s₀.mem t n) = false) :
    Filling own own₁ own' s₀ s st L p c t (n + 1) := by
  have he : pteUserTable (pteAt s₀.mem t n) = false := by
    rw [pteUserTable, hp]
    rfl
  refine ⟨h.cloning, h.keep, h.off, fun i hi => ?_, fun j hlo hj => h.todo j (by omega) hj, ?_⟩
  · rcases Nat.lt_succ_iff_lt_or_eq.mp hi with hi | rfl
    · exact h.done i hi
    · rw [EntryCloned, he, if_neg (by decide), copyPte, hp, if_neg (by decide)]
      exact h.todo i (Nat.le_refl i) hn
  · rw [framesUpTo_other he]
    exact h.frames

/-- **An entry that is copied.** -/
theorem filling_copied (h₀ : VmmInv own s₀) (ht : own t = some (L + 1, p))
    (hc : own₁ c = some (L + 1, p)) (hnone : own c = none) (hn : n < 512)
    (h : Filling own own₁ own' s₀ s st L p c t n)
    (he : pteUserTable (pteAt s₀.mem t n) = false) :
    Filling own own₁ own' s₀ s (st.stored c n (copyPte (pteAt s₀.mem t n))) L p c t (n + 1) := by
  have hc' := h.keep _ _ _ hc
  have hinv := h.cloning.grow.inv
  have hcopy : ∀ u g, pageKind (L + 1) (copyPte (pteAt s₀.mem t n)) = .next u g →
      ∃ M, L + 1 = M + 1 ∧ own' u = some (M, p * 512 + n) := by
    intro u g hk
    unfold copyPte at hk
    split at hk
    · obtain ⟨M, hM, hu⟩ := h₀.labelled t _ _ n u g ht hn hk
      exact ⟨M, hM, h.cloning.grow.keep _ _ _ hu⟩
    · exact absurd (pageKind_next hk).1 (by decide)
  have hok : EntryOk (L + 1) (copyPte (pteAt s₀.mem t n)) := by
    unfold copyPte
    split
    · exact h₀.entries t _ _ n ht hn
    · exact entryOk_zero
  have hgrow := grow_set hinv hc' hn hok hcopy
  have hedit := editAt_stored hinv hc' hn (copyPte (pteAt s₀.mem t n))
  have hoff : ∀ u, own' u ≠ none → u ≠ c → ∀ j, j < 512 →
      pteAt (st.stored c n (copyPte (pteAt s₀.mem t n))).mem u j = pteAt st.mem u j :=
    fun u hu huc j hj => hedit u j hu hj fun hs => huc hs.1
  have hold : ∀ u, own₁ u ≠ none → own' u ≠ none := by
    intro u hu
    obtain ⟨⟨M, q⟩, hM⟩ := Option.ne_none_iff_exists'.mp hu
    rw [h.keep u M q hM]
    exact Option.some_ne_none _
  have hknown : ∀ u, own u ≠ none → own' u ≠ none ∧ u ≠ c := by
    intro u hu
    obtain ⟨⟨M, q⟩, hM⟩ := Option.ne_none_iff_exists'.mp hu
    exact ⟨by rw [h.cloning.grow.keep u M q hM]; exact Option.some_ne_none _,
      fun huc => hu (huc ▸ hnone)⟩
  refine ⟨⟨grow_trans h.cloning.grow hgrow, fun u hu j hj => ?_⟩, h.keep, fun u hu huc j hj => ?_,
    fun i hi => ?_, fun j hlo hj => ?_, ?_⟩
  · rw [hoff u (hknown u hu).1 (hknown u hu).2 j hj]
    exact h.cloning.same u hu j hj
  · rw [hoff u (hold u hu) huc j hj]
    exact h.off u hu huc j hj
  · rcases Nat.lt_succ_iff_lt_or_eq.mp hi with hi | rfl
    · rw [hedit c i (by rw [hc']; exact Option.some_ne_none _) (by omega) fun hs => by omega]
      refine entryCloned_mono (h.done i hi) fun v u hvu =>
        cloned_congr hvu (fun _ _ _ hu => hu) fun u M q hu hM j hj => ?_
      refine hoff u (by rw [hu]; exact Option.some_ne_none _) (fun huc => ?_) j hj
      rw [huc, hc'] at hu
      cases hu
      omega
    · rw [pteAt_stored hinv hc' hn, EntryCloned, he, if_neg (by decide)]
  · rw [hedit c j (by rw [hc']; exact Option.some_ne_none _) hj fun hs => by omega]
    exact h.todo j (by omega) hj
  · rw [framesUpTo_other he]
    exact h.frames

/-- From `st` to `s'` the free frame `f` was linked in at entry `n` of table `c`, as an empty
    table. -/
structure Linked (own own₂ own' : Uptr → Option (Nat × Nat)) (s₀ st s' : VmmState) (L p : Nat)
    (c : Uptr) (n : Nat) (f : Uptr) : Prop where
  cloning : Cloning own own' s₀ s'
  keep : ∀ u M q, own₂ u = some (M, q) → own' u = some (M, q)
  label : own' f = some (L, p * 512 + n)
  frame : FrameOk f
  fresh : own₂ f = none
  empty : ∀ j, j < 512 → pteAt s'.mem f j = 0
  entry : pteAt s'.mem c n = f ||| MM_PT_USER_TABLE_FLAGS
  off : ∀ u, own₂ u ≠ none → ∀ j, j < 512 → ¬ (u = c ∧ j = n) →
    pteAt s'.mem u j = pteAt st.mem u j
  frames : st.free.length = s'.free.length + 1

theorem linked_child (hc : own₂ c = some (L + 1, p)) (hL : L ≠ 0) (hnone : own c = none)
    (hn : n < 512) (h : Cloning own own₂ s₀ st) (hfree : st.free = f :: rest) :
    Linked own own₂ (linkLabel own₂ f L p n) s₀ st
      ((st.taken f rest).stored c n (f ||| MM_PT_USER_TABLE_FLAGS)) L p c n f := by
  have hinv := h.grow.inv
  have hfm : f ∈ st.free := by rw [hfree]; exact List.mem_cons_self
  obtain ⟨hff, hf⟩ := hinv.free f hfm
  have hfc := hinv.frame _ _ _ hc
  have hcf : c ≠ f := by
    intro heq
    rw [heq, hf] at hc
    cases hc
  have hlink := @linkedIn_create own₂ st c f n L p MM_PT_USER_TABLE_FLAGS rest hinv hc hn hfree
  obtain ⟨hgrow, hedit⟩ := grow_link hinv hc hL hn hfree (Or.inr rfl) hlink
    fun _ _ => ⟨entryOk_zero, fun u g hk => absurd (pageKind_next hk).1 (by decide)⟩
  refine ⟨⟨grow_trans h.grow hgrow, fun u hu j hj => ?_⟩, hgrow.keep, Function.update_self _ _ _,
    hff, hf, fun j hj => ?_, ?_, fun u hu j hj hne => hedit u j hu hj hne, ?_⟩
  · obtain ⟨⟨M, q⟩, hM⟩ := Option.ne_none_iff_exists'.mp hu
    rw [← h.same u hu j hj]
    exact hedit u j (by rw [h.grow.keep u M q hM]; exact Option.some_ne_none _) hj
      fun hs => hu (hs.1 ▸ hnone)
  · refine (hlink.read f j hff hj).trans ?_
    rw [if_neg fun hs => hcf hs.1.symm, if_pos rfl]
  · exact (hlink.read c n hfc hn).trans (if_pos ⟨rfl, rfl⟩)
  · rw [hfree]
    rfl

/-- **An entry that is cloned**, with the table behind it. -/
theorem filling_child {own₃ : Uptr → Option (Nat × Nat)} {st' : VmmState}
    (hc : own₁ c = some (L + 1, p)) (hn : n < 512) (h : Filling own own₁ own₂ s₀ s st L p c t n)
    (he : pteUserTable (pteAt s₀.mem t n) = true)
    (hl : Linked own own₂ own₃ s₀ st st' L p c n f)
    (hb : TableCloned own own₃ own' s₀ st' s' L (p * 512 + n) f (pteP2v (pteAt s₀.mem t n))) :
    Filling own own₁ own' s₀ s s' L p c t (n + 1) := by
  have hc' := h.keep _ _ _ hc
  have hkeep : ∀ u M q, own₂ u = some (M, q) → own' u = some (M, q) :=
    fun u M q hu => hb.keep u M q (hl.keep u M q hu)
  have hoff : ∀ u, own₂ u ≠ none → ∀ j, j < 512 → ¬ (u = c ∧ j = n) →
      pteAt s'.mem u j = pteAt st.mem u j := by
    intro u hu j hj hne
    obtain ⟨⟨M, q⟩, hM⟩ := Option.ne_none_iff_exists'.mp hu
    rw [hb.off u (by rw [hl.keep u M q hM]; exact Option.some_ne_none _)
      (fun huf => hu (huf ▸ hl.fresh)) j hj]
    exact hl.off u hu j hj hne
  have hold : ∀ u, own₁ u ≠ none → own₂ u ≠ none := by
    intro u hu
    obtain ⟨⟨M, q⟩, hM⟩ := Option.ne_none_iff_exists'.mp hu
    rw [h.keep u M q hM]
    exact Option.some_ne_none _
  have hcn : own₂ c ≠ none := by rw [hc']; exact Option.some_ne_none _
  have hf : own f = none := by
    by_contra hf
    obtain ⟨⟨M, q⟩, hM⟩ := Option.ne_none_iff_exists'.mp hf
    have hfresh := hl.fresh
    rw [h.cloning.grow.keep f M q hM] at hfresh
    cases hfresh
  refine ⟨hb.cloning, fun u M q hu => hkeep u M q (h.keep u M q hu), fun u hu huc j hj => ?_,
    fun i hi => ?_, fun j hlo hj => ?_, ?_⟩
  · rw [hoff u (hold u hu) j hj fun hs => huc hs.1]
    exact h.off u hu huc j hj
  · rcases Nat.lt_succ_iff_lt_or_eq.mp hi with hi | rfl
    · rw [hoff c hcn i (by omega) fun hs => by omega]
      refine entryCloned_mono (h.done i hi) fun v u hvu =>
        cloned_congr hvu hkeep fun u M q hu hM j hj => ?_
      refine hoff u (by rw [hu]; exact Option.some_ne_none _) j hj fun hs => ?_
      rw [hs.1, hc'] at hu
      cases hu
      omega
    · have hcf : c ≠ f := fun hcf => hcn (hcf ▸ hl.fresh)
      have hentry : pteAt s'.mem c i = f ||| MM_PT_USER_TABLE_FLAGS := by
        rw [hb.off c (by rw [hl.keep _ _ _ hc']; exact Option.some_ne_none _) hcf i hn]
        exact hl.entry
      rw [EntryCloned, if_pos he]
      exact ⟨f, hl.frame, hf, hentry, hb.cloned⟩
  · rw [hoff c hcn j hj fun hs => by omega]
    exact h.todo j (by omega) hj
  · have hst := h.frames
    have hlink := hl.frames
    have hbelow := hb.frames
    rw [framesUpTo_user he]
    omega

/-- What the call for a child owes. -/
def BelowOk (own : Uptr → Option (Nat × Nat)) (s₀ : VmmState) (L p : Nat) (u : Uptr)
    (below : Uptr → Uptr → Prog Fault VmmState Unit) : Prop :=
  ∀ own₁ s f, Cloning own own₁ s₀ s → own₁ f = some (L, p) → own f = none →
    (∀ j, j < 512 → pteAt s.mem f j = 0) →
    ends (below f u) s (fun _ s' => ∃ own', TableCloned own own₁ own' s₀ s s' L p f u)
      fun _ => CloneStops s₀ s L u

/-- **One entry of the loop.** -/
theorem ends_cloneEntry (h₀ : VmmInv own s₀) (ht : own t = some (L + 1, p))
    (hc : own₁ c = some (L + 1, p)) (hnone : own c = none) (hn : n < 512)
    (h : Filling own own₁ own₂ s₀ s st L p c t n)
    (hbelow : L ≠ 0 → pteUserTable (pteAt s₀.mem t n) = true →
      BelowOk own s₀ L (p * 512 + n) (pteP2v (pteAt s₀.mem t n)) below)
    (hlast : L = 0 → ∀ f u st, ends (below f u) st (fun _ _ => False) fun _ => True) :
    ends (cloneEntry below c t n) st (fun _ st' => ∃ own', Filling own own₁ own' s₀ s st' L p c t
      (n + 1)) fun _ => CloneStops s₀ s (L + 1) t := by
  have hread : pteAt st.mem t n = pteAt s₀.mem t n :=
    h.cloning.same t (by rw [ht]; exact Option.some_ne_none _) n hn
  have hbit := and_twoPow_ne_zero (pteAt s₀.mem t n) (k := 2) (by decide)
  have htotal := @framesUpTo_le s₀.mem L (n + 1) t hn
  have hload : pdLoad t n st = .ok (pteAt s₀.mem t n, st) := by
    rw [← hread]
    rfl
  have hcopied : ptePresent (pteAt s₀.mem t n) = true → pteUserTable (pteAt s₀.mem t n) = false →
      ends (pdStore c n (pteAt s₀.mem t n)) st
        (fun _ st' => ∃ own', Filling own own₁ own' s₀ s st' L p c t (n + 1))
        fun _ => CloneStops s₀ s (L + 1) t := by
    intro hp he
    have hcopy : copyPte (pteAt s₀.mem t n) = pteAt s₀.mem t n := if_pos hp
    have hfill := filling_copied h₀ ht hc hnone hn h he
    rw [hcopy] at hfill
    exact ends_of_wp ((wp_pdStore _ _ _ _ _).mpr ⟨own₂, hfill⟩)
  unfold cloneEntry
  rw [ends_bind, ends_of_eq hload]
  cases hp : ptePresent (pteAt s₀.mem t n) with
  | false => exact (ends_pure _ _ _ _).mpr ⟨own₂, filling_absent hn h hp⟩
  | true =>
      rw [if_neg (by decide)]
      by_cases huser : pteAt s₀.mem t n &&& MM_PT_FLAG_USER = 0
      · rw [if_pos huser]
        refine hcopied hp ?_
        rw [pteUserTable, huser, Bool.and_assoc]
        exact (Bool.and_eq_false_imp.mpr fun _ => Bool.and_false _)
      rw [if_neg huser]
      cases hl : pteLarge (pteAt s₀.mem t n) with
      | true =>
          rw [if_pos rfl]
          refine hcopied hp ?_
          rw [pteUserTable, hl, Bool.not_true, Bool.and_false, Bool.false_and]
      | false =>
          have he : pteUserTable (pteAt s₀.mem t n) = true :=
            pteUserTable_iff.mpr ⟨hp, hl, hbit.symm.trans (bne_iff_ne.mpr huser)⟩
          rw [framesUpTo_user he] at htotal
          have hframes := h.frames
          rw [if_neg (by decide)]
          cases hfree : st.free with
          | nil =>
              rw [hfree, List.length_nil] at hframes
              refine (ends_of_stops (stops_bind_left (pmmAllocFrame_stops hfree))).mpr (Or.inl ?_)
              omega
          | cons f rest =>
              have hlen : st.free.length = rest.length + 1 := by rw [hfree]; rfl
              have hstore : pdStore c n (f ||| MM_PT_USER_TABLE_FLAGS) (st.taken f rest) =
                .ok ((), (st.taken f rest).stored c n (f ||| MM_PT_USER_TABLE_FLAGS)) := rfl
              rw [ends_bind, ends_of_eq (pmmAllocFrame_cons hfree), ends_bind, ends_of_eq hstore]
              by_cases hL : L = 0
              · refine ends_mono (hlast hL _ _ _) (fun _ _ hno => hno.elim) fun _ _ => Or.inr ?_
                intro hpage
                have hchild := hpage n hn he
                rw [hL] at hchild
                exact hchild
              have hlink := linked_child (h.keep _ _ _ hc) hL hnone hn h.cloning hfree
              have hf : own f = none := by
                by_contra hf
                obtain ⟨⟨M, q⟩, hM⟩ := Option.ne_none_iff_exists'.mp hf
                have hfresh := hlink.fresh
                rw [h.cloning.grow.keep f M q hM] at hfresh
                cases hfresh
              refine ends_mono (hbelow hL he _ _ f hlink.cloning hlink.label hf hlink.empty)
                (fun _ st' hst' => ?_) fun _ hstop => ?_
              · obtain ⟨own', hst'⟩ := hst'
                exact ⟨own', filling_child hc hn h he hlink hst'⟩
              · rcases hstop with hfew | hpage
                · have hfree' : ((st.taken f rest).stored c n
                    (f ||| MM_PT_USER_TABLE_FLAGS)).free.length = rest.length := rfl
                  rw [hfree'] at hfew
                  refine Or.inl ?_
                  omega
                · exact Or.inr fun hall => hpage (hall n hn he)

/-- The switch over the levels. -/
theorem ends_last (f u : Uptr) (s : VmmState) :
    ends (vmmCloneTables 0 f u) s (fun _ _ => False) fun _ => True := trivial

/-- **The recursion**: table `t` is copied to the empty table `c`, or the frames do not suffice, or
    it came by the entry of a page. -/
theorem ends_vmmCloneTables (h₀ : VmmInv own s₀) (ht : own t = some (L, p)) :
    BelowOk own s₀ L p t (vmmCloneTables L) := by
  induction L generalizing t p with
  | zero =>
      intro own₁ s f _ _ _ _
      exact ends_mono (ends_last f t s) (fun _ _ hno => hno.elim) fun _ _ => Or.inr fun hpage => hpage
  | succ L ih =>
      intro own₁ s c hst hc hnone hempty
      unfold vmmCloneTables
      -- with the number itself the elaborator would run the loop
      generalize hN : 512 = N
      have hloop : ends (forUp N (cloneEntry (vmmCloneTables L) c t)) s
          (fun _ st => ∃ own', Filling own own₁ own' s₀ s st L p c t N)
          fun _ => CloneStops s₀ s (L + 1) t := by
        refine ends_forUp (fun n st => ∃ own', Filling own own₁ own' s₀ s st L p c t n)
          ⟨own₁, filling_nil hst hempty⟩ fun n st hn hst => ?_
        obtain ⟨own₂, hst⟩ := hst
        refine ends_cloneEntry h₀ ht hc hnone (by omega) hst (fun hL he => ?_) fun hL f u st => ?_
        · exact ih (child_user h₀ ht hL (by omega) he).2
        · rw [hL]
          exact ends_last f u st
      refine ends_mono hloop (fun _ s' hs' => ?_) fun _ hstop => hstop
      obtain ⟨own', hs'⟩ := hs'
      rw [← hN] at hs'
      exact ⟨own', tableCloned_full hc ht hs'⟩

end Filling

/-- `q` is the copy of `pmap`; the tables of `own` are as they were in `s₀`. -/
structure MapCloned (own own' : Uptr → Option (Nat × Nat)) (s₀ s' : VmmState) (pmap q : PageMap) :
    Prop where
  level : q.level = pmap.level
  fresh : own q.directory = none
  cloning : Cloning own own' s₀ s'
  cloned : Cloned own own' s₀.mem s'.mem pmap.level.num 0 q.directory pmap.directory
  frames : s₀.free.length = s'.free.length + cloneFrames s₀.mem pmap.level.num pmap.directory + 1

/-- **`vmm_clone_page_map`** makes a copy, or the frames do not suffice, or it came by the entry of
    a page. -/
theorem ends_vmmClonePageMap {own : Uptr → Option (Nat × Nat)} {s₀ : VmmState} {pmap : PageMap}
    (h₀ : VmmInv own s₀) (hr : MapRoot own pmap) :
    ends (vmmClonePageMap pmap) s₀ (fun q s' => ∃ own', MapCloned own own' s₀ s' pmap q)
      fun _ => s₀.free.length < cloneFrames s₀.mem pmap.level.num pmap.directory + 1 ∨
        ¬ NoPage s₀.mem pmap.level.num pmap.directory := by
  unfold vmmClonePageMap
  cases hfree : s₀.free with
  | nil =>
      refine (ends_of_stops (stops_bind_left (pmmAllocFrame_stops hfree))).mpr (Or.inl ?_)
      exact Nat.succ_pos _
  | cons c rest =>
      obtain ⟨hfc, hc⟩ := h₀.free c (by rw [hfree]; exact List.mem_cons_self)
      have hgrow := grow_fresh h₀ hfree pmap.level.num 0
      have hst : Cloning own (Function.update own c (some (pmap.level.num, 0))) s₀
          (s₀.taken c rest) := ⟨hgrow, fun u hu j hj => taken_pte h₀ hfree hu hj⟩
      have hempty : ∀ j, j < 512 → pteAt (s₀.taken c rest).mem c j = 0 := fun j hj =>
        (pteAt_fill hfc hfc hj).trans (if_pos rfl)
      have hlen : (s₀.taken c rest).free.length = rest.length := rfl
      rw [ends_bind, ends_of_eq (pmmAllocFrame_cons hfree), ends_bind]
      refine ends_mono (ends_vmmCloneTables h₀ hr.root _ _ c hst (Function.update_self _ _ _) hc
        hempty) (fun _ s' hs' => ?_) fun _ hstop => hstop.imp_left fun hfew => ?_
      · obtain ⟨own', hs'⟩ := hs'
        have hframes := hs'.frames
        rw [hlen] at hframes
        refine (ends_pure _ _ _ _).mpr ⟨own', rfl, hc, hs'.cloning, hs'.cloned, ?_⟩
        rw [hfree, List.length_cons, hframes]
      · rw [hlen] at hfew
        rw [List.length_cons]
        omega

/-! ## 5. Where the copy leads -/

section Walks

variable {own own' : Uptr → Option (Nat × Nat)} {s₀ s' : VmmState} {t c u v : Uptr}
  {K L M p i key : Nat} {e e' : U64} {below : Uptr → Uptr → Prop}

/-- The entry of a table that was cloned leads on as the source's does. -/
theorem under_cloned {e : U64} (hv : FrameOk v) (he : pteUserTable e = true)
    (hbits : TableBits L e) (hL : L ≠ 1) :
    Hit.under (v ||| MM_PT_USER_TABLE_FLAGS) = Hit.under e := by
  obtain ⟨hp, hl, hu⟩ := pteUserTable_iff.mp he
  obtain ⟨hw, hx⟩ := hbits hp hl hL
  have hbit : ∀ k, k < 12 ∨ 48 ≤ k → (v ||| MM_PT_USER_TABLE_FLAGS).getLsbD k =
      MM_PT_USER_TABLE_FLAGS.getLsbD k := fun k hk => or_bit hv hk
  funext hit
  unfold Hit.under
  rw [hbit 2 (by omega), hbit 1 (by omega), hbit 63 (by omega), hu, hw, hx]
  rfl

/-- **A copy leads every walk where the source does.** -/
theorem cloned_walk (h₀ : VmmInv own s₀) (hbits : Entries TableBits own s₀)
    (hc : Cloning own own' s₀ s') (h : Cloned own own' s₀.mem s'.mem L p c t)
    (hkey : key / 512 ^ L = p) : walk s'.mem key L c = walk s₀.mem key L t := by
  induction L generalizing p c t with
  | zero => exact h.elim
  | succ L ih =>
      obtain ⟨-, ht, hentries⟩ := h
      have hi := slot_lt key L
      have hentry := hentries (slot key L) hi
      have hupper : key / 512 ^ L = p * 512 + slot key L := by
        rw [div_pow_digit 512 key L, hkey]
      unfold EntryCloned at hentry
      split at hentry
      · rename_i he
        obtain ⟨v, hv, -, hlink, hbelow⟩ := hentry
        have hL : L ≠ 0 := by
          rintro rfl
          exact hbelow
        have htable : IsTable (pteAt s'.mem c (slot key L)) v := by
          rw [hlink]
          exact isTable_link hv (Or.inr rfl)
        rw [walk_next htable hL, walk_next (child_user h₀ ht hL hi he).1 hL, ih hbelow hupper,
          hlink, under_cloned hv he (hbits t _ _ _ ht hi) (by omega)]
      · unfold copyPte at hentry
        cases hp : ptePresent (pteAt s₀.mem t (slot key L)) with
        | false =>
            rw [hp, if_neg (by decide)] at hentry
            rw [walk_absent hp, walk_absent (by rw [hentry]; decide)]
        | true =>
            rw [hp, if_pos rfl] at hentry
            unfold walk
            rw [look, look, hentry]
            cases hk : pageKind (L + 1) (pteAt s₀.mem t (slot key L)) with
            | absent => rfl
            | leaf r => rfl
            | next u f =>
                have hu : own u = some (L, key / 512 ^ L) :=
                  labelled_next (by decide) h₀.labelled (by rw [hkey]; exact ht) hk
                have hsame : walk s'.mem key L u = walk s₀.mem key L u :=
                  look_congr (by decide) h₀.labelled (fun w M _ hw => hc.same w
                    (by rw [hw]; exact Option.some_ne_none _) _ (slot_lt key M)) hu
                exact congrArg (Option.map f) hsame

end Walks

end Slightx
