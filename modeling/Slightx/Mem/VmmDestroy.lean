/-
  File:      Slightx/Mem/VmmDestroy.lean
  Subject:   `vmm_destroy_page_map`.

  Source: kernel/mem/vmm.c.

  The entries 256 to 511 of a top-level table belong to the kernel, and `vmm_destroy_tables` leaves
  them alone. It goes by the level: a PML4 has this limit also where it is a table of the lower half
  of a PML5, whose tables are all private. With five levels the tables behind those entries, for
  addresses with bit 47 set, are never freed.

  * `subtables` -- the tables the recursion frees, in its order
  * `wp_vmmDestroyTables` -- it frees these, and changes no table but these and the one it starts at
  * `Owned` -- the tables made for a page map lead to each other and nothing else leads to them
  * `wp_vmmDestroyPageMap` -- what a page map loses, whatever was mapped
  * `vmmDestroyPageMap_exact` -- it is exactly its own tables, unless bit 47 of an address was set
-/
import Slightx.Mem.UserHalf
import Slightx.Mem.KernelHalf

namespace Slightx

open Lib

/-! ## 1. The calls -/

/-- The entries of a table that `vmm_destroy_tables` looks at. -/
def entryLimit (level : Nat) : Nat := if level = 4 ∨ level = 5 then 256 else 512

/-- The body of the loop of `vmm_destroy_tables`; `below` is its call for the child. -/
def destroyEntry (below : Uptr → Prog Fault VmmState Unit) (tbl : Uptr) (i : Nat) :
    Prog Fault VmmState Unit := do
  let pte ← pdLoad tbl i
  if !ptePresent pte then pure ()
  else if pteLarge pte then pure ()
  else if pte &&& MM_PT_FLAG_USER = 0 then pure ()
  else do
    let child := pteP2v pte
    below child
    pmmFreeFrame child
    pdStore tbl i 0

/-- Levels by their number, PML1 is 1. Where the child is a PML1 there is no call, and a call for
    a PML1 returns at once. -/
def vmmDestroyTables : (level : Nat) → (tbl : Uptr) → Prog Fault VmmState Unit
  | level + 2, tbl =>
      forUp (entryLimit (level + 2)) fun i => destroyEntry (vmmDestroyTables (level + 1)) tbl i
  | _, _ => pure ()

/-- The page map is `none` where the pointer or its directory is NULL, and so it is afterwards.
    `isKernel` says that it is the kernel's. -/
def vmmDestroyPageMap (isKernel : Bool) : Option PageMap → Prog Fault VmmState (Option PageMap)
  | none => pure none
  | some pmap =>
      if isKernel then
        panic "[vmm] vmm_destroy_page_map(): attempt to destroy kernel page map"
      else do
        vmmDestroyTables pmap.level.num pmap.directory
        pmmFreeFrame pmap.directory
        pure none

/-! ## 2. The tables freed -/

/-- An entry `vmm_destroy_tables` goes through. -/
def pteUserTable (pte : U64) : Bool :=
  ptePresent pte && !pteLarge pte && pte &&& MM_PT_FLAG_USER != 0

/-- The tables freed from table `tbl` on, without itself. -/
def subtables (m : Mem) : (level : Nat) → (tbl : Uptr) → List Uptr
  | level + 2, tbl =>
      (List.range (entryLimit (level + 2))).flatMap fun i =>
        if pteUserTable (pteAt m tbl i) then
          subtables m (level + 1) (pteP2v (pteAt m tbl i)) ++ [pteP2v (pteAt m tbl i)]
        else []
  | _, _ => []

/-- The tables freed at one entry of a table of level `L + 1`. -/
def freedAt (m : Mem) (L : Nat) (pte : U64) : List Uptr :=
  if pteUserTable pte then subtables m L (pteP2v pte) ++ [pteP2v pte] else []

theorem subtables_succ (m : Mem) (L : Nat) (t : Uptr) : subtables m (L + 2) t =
    (List.range (entryLimit (L + 2))).flatMap fun i => freedAt m (L + 1) (pteAt m t i) := rfl

theorem entryLimit_le (L : Nat) : entryLimit L ≤ 512 := by
  unfold entryLimit
  split <;> decide

theorem pteUserTable_iff {e : U64} : pteUserTable e = true ↔
    ptePresent e = true ∧ pteLarge e = false ∧ e.getLsbD 2 = true := by
  have hbit := and_twoPow_ne_zero e (k := 2) (by decide)
  have huser : (e &&& MM_PT_FLAG_USER != 0) = e.getLsbD 2 := hbit
  unfold pteUserTable
  rw [huser]
  simp [and_assoc]

section Subtables

variable {own : Uptr → Option (Nat × Nat)} {s : VmmState} {t u : Uptr} {L p i : Nat}

/-- The table behind such an entry. -/
theorem child_user (h : VmmInv own s) (ht : own t = some (L + 1, p)) (hL : L ≠ 0) (hi : i < 512)
    (he : pteUserTable (pteAt s.mem t i) = true) :
    IsTable (pteAt s.mem t i) (pteP2v (pteAt s.mem t i)) ∧
      own (pteP2v (pteAt s.mem t i)) = some (L, p * 512 + i) := by
  obtain ⟨hp, hl, -⟩ := pteUserTable_iff.mp he
  have htable := isTable_of_small h ht hL hi hp hl
  exact ⟨htable, child_label h ht hL hi htable⟩

theorem mem_subtables : u ∈ subtables s.mem (L + 2) t ↔
    ∃ i, i < entryLimit (L + 2) ∧ pteUserTable (pteAt s.mem t i) = true ∧
      (u = pteP2v (pteAt s.mem t i) ∨ u ∈ subtables s.mem (L + 1) (pteP2v (pteAt s.mem t i))) := by
  rw [subtables_succ, List.mem_flatMap]
  constructor
  · rintro ⟨i, hi, hu⟩
    unfold freedAt at hu
    split at hu
    · rename_i he
      refine ⟨i, List.mem_range.mp hi, he, ?_⟩
      rcases List.mem_append.mp hu with hu | hu
      · exact Or.inr hu
      · exact Or.inl (List.mem_singleton.mp hu)
    · cases hu
  · rintro ⟨i, hi, he, hu⟩
    refine ⟨i, List.mem_range.mpr hi, ?_⟩
    unfold freedAt
    rw [if_pos he]
    rcases hu with rfl | hu
    · exact List.mem_append_right _ List.mem_cons_self
    · exact List.mem_append_left _ hu

/-- **Where a freed table is**: its label continues that of the table the recursion starts at, and
    the digits between are below the limits. -/
theorem subtables_label (h : VmmInv own s) (ht : own t = some (L, p))
    (hu : u ∈ subtables s.mem L t) : ∃ K q, own u = some (K, q) ∧ 1 ≤ K ∧ K < L ∧
      q / 512 ^ (L - K) = p ∧
      ∀ M, K ≤ M → M < L → q / 512 ^ (M - K) % 512 < entryLimit (M + 1) := by
  induction L generalizing t p with
  | zero => cases hu
  | succ L ih =>
      cases L with
      | zero => cases hu
      | succ L =>
          obtain ⟨i, hi, he, hu⟩ := mem_subtables.mp hu
          have hi512 := Nat.lt_of_lt_of_le hi (entryLimit_le _)
          obtain ⟨-, hc⟩ := child_user h ht (Nat.succ_ne_zero _) hi512 he
          rcases hu with rfl | hu
          · refine ⟨L + 1, p * 512 + i, hc, by omega, by omega, ?_, fun M hlo hhi => ?_⟩
            · rw [show L + 1 + 1 - (L + 1) = 1 by omega]
              omega
            · obtain rfl : M = L + 1 := by omega
              rw [Nat.sub_self, Nat.pow_zero, Nat.div_one, Nat.mul_add_mod_of_lt hi512]
              exact hi
          · obtain ⟨K, q, hq, hK, hKL, hpre, hdig⟩ := ih hc hu
            refine ⟨K, q, hq, hK, by omega, ?_, fun M hlo hhi => ?_⟩
            · rw [show L + 1 + 1 - K = L + 1 - K + 1 by omega, Nat.pow_succ,
                ← Nat.div_div_eq_div_mul, hpre]
              omega
            · by_cases hM : M < L + 1
              · exact hdig M hlo hM
              · obtain rfl : M = L + 1 := by omega
                rw [hpre, Nat.mul_add_mod_of_lt hi512]
                exact hi

/-- The same for the tables freed at one entry. -/
theorem freedAt_label (h : VmmInv own s) (ht : own t = some (L + 2, p)) (hi : i < 512)
    (hu : u ∈ freedAt s.mem (L + 1) (pteAt s.mem t i)) :
    ∃ K q, own u = some (K, q) ∧ K ≤ L + 1 ∧ q / 512 ^ (L + 1 - K) = p * 512 + i := by
  unfold freedAt at hu
  split at hu
  · rename_i he
    obtain ⟨-, hc⟩ := child_user h ht (Nat.succ_ne_zero _) hi he
    rcases List.mem_append.mp hu with hu | hu
    · obtain ⟨K, q, hq, -, hK, hpre, -⟩ := subtables_label h hc hu
      exact ⟨K, q, hq, Nat.le_of_lt hK, hpre⟩
    · obtain rfl := List.mem_singleton.mp hu
      exact ⟨L + 1, _, hc, Nat.le_refl _, by rw [Nat.sub_self, Nat.pow_zero, Nat.div_one]⟩
  · cases hu

/-- Two entries free different tables. -/
theorem freedAt_disjoint {j : Nat} (h : VmmInv own s) (ht : own t = some (L + 2, p)) (hi : i < 512)
    (hj : j < 512) (hu : u ∈ freedAt s.mem (L + 1) (pteAt s.mem t i))
    (hu' : u ∈ freedAt s.mem (L + 1) (pteAt s.mem t j)) : i = j := by
  obtain ⟨K, q, hq, -, hpre⟩ := freedAt_label h ht hi hu
  obtain ⟨K', q', hq', -, hpre'⟩ := freedAt_label h ht hj hu'
  rw [hq] at hq'
  cases hq'
  omega

/-- The table itself is not among the tables freed below it. -/
theorem freedAt_self (h : VmmInv own s) (ht : own t = some (L + 2, p)) (hi : i < 512) :
    t ∉ freedAt s.mem (L + 1) (pteAt s.mem t i) := by
  intro hu
  obtain ⟨K, q, hq, hK, -⟩ := freedAt_label h ht hi hu
  rw [ht] at hq
  cases hq
  omega

/-- **No table is freed twice.** -/
theorem subtables_nodup (h : VmmInv own s) (ht : own t = some (L, p)) :
    (subtables s.mem L t).Nodup := by
  induction L generalizing t p with
  | zero => exact List.nodup_nil
  | succ L ih =>
      cases L with
      | zero => exact List.nodup_nil
      | succ L =>
          have hlim := entryLimit_le (L + 2)
          rw [subtables_succ, List.nodup_flatMap]
          refine ⟨fun i hi => ?_, ?_⟩
          · have hi512 := Nat.lt_of_lt_of_le (List.mem_range.mp hi) hlim
            unfold freedAt
            split
            · rename_i he
              obtain ⟨-, hc⟩ := child_user h ht (Nat.succ_ne_zero _) hi512 he
              refine List.nodup_append.mpr ⟨ih hc, List.nodup_singleton _, fun a ha b hb hab => ?_⟩
              obtain rfl := List.mem_singleton.mp hb
              subst hab
              obtain ⟨K, q, hq, -, hK, -⟩ := subtables_label h hc ha
              rw [hc] at hq
              cases hq
              omega
            · exact List.nodup_nil
          · refine List.pairwise_iff_forall_sublist.mpr fun {i j} hij => ?_
            have hmem := hij.subset
            have hi := List.mem_range.mp (hmem List.mem_cons_self)
            have hj := List.mem_range.mp (hmem (List.mem_cons_of_mem i List.mem_cons_self))
            have hne : i ≠ j := by
              have hnd := (List.nodup_range (n := entryLimit (L + 2))).sublist hij
              exact fun he => (List.nodup_cons.mp hnd).1 (he ▸ List.mem_cons_self)
            intro u hu hu'
            exact hne (freedAt_disjoint h ht (by omega) (by omega) hu hu')

end Subtables

/-! ## 3. What the recursion does -/

section Destroy

variable {own : Uptr → Option (Nat × Nat)} {s₀ s : VmmState} {t : Uptr} {L p : Nat}

theorem wp_pmmFreeFrame (pa : Uptr) (s : VmmState) (Q : Unit → VmmState → Prop) :
    wp (pmmFreeFrame pa) s Q ↔
      Q () { s with free := pa / MM_PHYS_PAGE_SIZE * MM_PHYS_PAGE_SIZE :: s.free } :=
  wp_modify _ _ _

/-- The frames of `l` were freed, in this order, and only tables among them and `t` changed. -/
structure FreedAll (t : Uptr) (l : List Uptr) (s s' : VmmState) : Prop where
  free : s'.free = l.reverse ++ s.free
  off : ∀ u j, FrameOk u → u ≠ t → u ∉ l → j < 512 → pteAt s'.mem u j = pteAt s.mem u j

/-- One entry: nothing, or the tables below it, its table and the entry itself go. -/
theorem wp_destroyEntry {below : Uptr → Prog Fault VmmState Unit} {st : VmmState} {n : Nat}
    {Q : Unit → VmmState → Prop} (h : VmmInv own s₀) (ht : own t = some (L + 2, p)) (hn : n < 512)
    (he : pteAt st.mem t n = pteAt s₀.mem t n)
    (hbelow : pteUserTable (pteAt s₀.mem t n) = true →
      wp (below (pteP2v (pteAt s₀.mem t n))) st fun _ st' =>
        FreedAll (pteP2v (pteAt s₀.mem t n))
          (subtables s₀.mem (L + 1) (pteP2v (pteAt s₀.mem t n))) st st')
    (hQ : ∀ st', st'.free = (freedAt s₀.mem (L + 1) (pteAt s₀.mem t n)).reverse ++ st.free →
      (∀ u j, FrameOk u → ¬ (u = t ∧ j = n) →
        u ∉ freedAt s₀.mem (L + 1) (pteAt s₀.mem t n) → j < 512 →
        pteAt st'.mem u j = pteAt st.mem u j) → Q () st') :
    wp (destroyEntry below t n) st Q := by
  have huser : pteUserTable (pteAt s₀.mem t n) = true ↔ ptePresent (pteAt s₀.mem t n) = true ∧
      pteLarge (pteAt s₀.mem t n) = false ∧ pteAt s₀.mem t n &&& MM_PT_FLAG_USER ≠ 0 := by
    simp [pteUserTable, and_assoc]
  unfold destroyEntry
  rw [wp_bind, wp_pdLoad, he]
  cases hu : pteUserTable (pteAt s₀.mem t n) with
  | false =>
      have hskip : Q () st := by
        refine hQ st ?_ fun _ _ _ _ _ _ => rfl
        unfold freedAt
        rw [hu]
        rfl
      rw [hu] at huser
      have hno : ¬ (ptePresent (pteAt s₀.mem t n) = true ∧ pteLarge (pteAt s₀.mem t n) = false ∧
          pteAt s₀.mem t n &&& MM_PT_FLAG_USER ≠ 0) := fun hall =>
        Bool.false_ne_true (huser.mpr hall)
      by_cases hp : ptePresent (pteAt s₀.mem t n) = true
      · rw [if_neg (by simp [hp])]
        by_cases hl : pteLarge (pteAt s₀.mem t n) = true
        · rw [if_pos hl, wp_pure]
          exact hskip
        · rw [if_neg hl, if_pos (Classical.byContradiction fun hne =>
            hno ⟨hp, eq_false_of_ne_true hl, hne⟩), wp_pure]
          exact hskip
      · rw [if_pos (by simp [eq_false_of_ne_true hp]), wp_pure]
        exact hskip
  | true =>
      obtain ⟨hp, hl, hne⟩ := huser.mp hu
      obtain ⟨-, hc⟩ := child_user h ht (Nat.succ_ne_zero _) hn hu
      have hft := h.frame t _ _ ht
      have hfreed : freedAt s₀.mem (L + 1) (pteAt s₀.mem t n) =
          subtables s₀.mem (L + 1) (pteP2v (pteAt s₀.mem t n)) ++
            [pteP2v (pteAt s₀.mem t n)] := by
        unfold freedAt
        rw [if_pos hu]
      rw [if_neg (by simp [hp]), if_neg (by simp [hl]), if_neg hne, wp_bind]
      refine wp_mono (hbelow hu) fun _ st' hst' => ?_
      rw [wp_bind, wp_pmmFreeFrame, wp_pdStore, frame_round (h.frame _ _ _ hc)]
      refine hQ _ ?_ fun u j hfu hne hnot hj => ?_
      · rw [hfreed, List.reverse_append, hst'.free]
        rfl
      · rw [hfreed, List.mem_append, List.mem_singleton, not_or] at hnot
        refine (pteAt_store64 hft hfu hn hj).trans ?_
        rw [if_neg hne]
        exact hst'.off u j hfu hnot.2 hnot.1 hj

/-- **`vmm_destroy_tables` frees the tables below `t`**, where they are as they were in `s₀`. -/
theorem wp_vmmDestroyTables (h : VmmInv own s₀) (ht : own t = some (L, p))
    (hsame : ∀ u j, u = t ∨ u ∈ subtables s₀.mem L t → j < 512 →
      pteAt s.mem u j = pteAt s₀.mem u j) :
    wp (vmmDestroyTables L t) s fun _ s' => FreedAll t (subtables s₀.mem L t) s s' := by
  induction L generalizing t p s with
  | zero => exact (wp_pure _ _ _).mpr ⟨rfl, fun _ _ _ _ _ _ => rfl⟩
  | succ L ih =>
      cases L with
      | zero => exact (wp_pure _ _ _).mpr ⟨rfl, fun _ _ _ _ _ _ => rfl⟩
      | succ L =>
          have hlim := entryLimit_le (L + 2)
          have hft := h.frame t _ _ ht
          let upTo : Nat → List Uptr := fun n =>
            (List.range n).flatMap fun i => freedAt s₀.mem (L + 1) (pteAt s₀.mem t i)
          let I : Nat → VmmState → Prop := fun n st => FreedAll t (upTo n) s st ∧
            ∀ j, n ≤ j → j < 512 → pteAt st.mem t j = pteAt s.mem t j
          have hI : ∀ n st, n < entryLimit (L + 2) → I n st →
              wp (destroyEntry (vmmDestroyTables (L + 1)) t n) st fun _ st' => I (n + 1) st' := by
            intro n st hn hst
            obtain ⟨hfreed, hrest⟩ := hst
            have hn512 := Nat.lt_of_lt_of_le hn hlim
            have he : pteAt st.mem t n = pteAt s₀.mem t n :=
              (hrest n (Nat.le_refl n) hn512).trans (hsame t n (Or.inl rfl) hn512)
            have hup : upTo (n + 1) = upTo n ++ freedAt s₀.mem (L + 1) (pteAt s₀.mem t n) := by
              show (List.range (n + 1)).flatMap _ = _
              rw [List.range_succ, List.flatMap_append, List.flatMap_singleton]
            refine wp_destroyEntry h ht hn512 he (fun huser => ?_) fun st' hfree hoff => ?_
            · -- the tables below this entry are as they were
              obtain ⟨-, hc⟩ := child_user h ht (Nat.succ_ne_zero _) hn512 huser
              refine ih hc fun u j hu hj => ?_
              have hat : u ∈ freedAt s₀.mem (L + 1) (pteAt s₀.mem t n) := by
                unfold freedAt
                rw [if_pos huser]
                rcases hu with rfl | hu
                · exact List.mem_append_right _ List.mem_cons_self
                · exact List.mem_append_left _ hu
              have hbelow : u ∈ subtables s₀.mem (L + 2) t :=
                List.mem_flatMap.mpr ⟨n, List.mem_range.mpr hn, hat⟩
              obtain ⟨K, q, hq, -⟩ := freedAt_label h ht hn512 hat
              rw [hfreed.off u j (h.frame u K q hq) (fun hut => ?_) (fun hin => ?_) hj,
                hsame u j (Or.inr hbelow) hj]
              · exact freedAt_self h ht hn512 (hut ▸ hat)
              · obtain ⟨i, hi, hin⟩ := List.mem_flatMap.mp hin
                have hin' := List.mem_range.mp hi
                have heq := freedAt_disjoint h ht (by omega) hn512 hin hat
                omega
            · refine ⟨⟨?_, fun u j hfu hut hnot hj => ?_⟩, fun j hlo hj => ?_⟩
              · rw [hup, List.reverse_append, List.append_assoc, ← hfreed.free]
                exact hfree
              · rw [hup, List.mem_append, not_or] at hnot
                rw [hoff u j hfu (fun hs => hut hs.1) hnot.2 hj]
                exact hfreed.off u j hfu hut hnot.1 hj
              · rw [hoff t j hft (fun hs => by omega) (freedAt_self h ht hn512) hj]
                exact hrest j (by omega) hj
          refine wp_mono (wp_forUp I ⟨⟨rfl, fun _ _ _ _ _ _ => rfl⟩, fun _ _ _ => rfl⟩ hI)
            fun _ st hst => hst.1

end Destroy

/-! ## 4. The tables of one page map -/

/-- Entry `i` of a table that is not among those of `own₀`; of the directory, one of the lower
    half. -/
def OwnEntry (own₀ : Uptr → Option (Nat × Nat)) (pmap : PageMap) (t : Uptr) (i : Nat) : Prop :=
  own₀ t = none ∧ (t = pmap.directory → i < 256)

/-- **The tables made for a page map**, beside those of `own₀`: they lead to each other, by entries
    with the user bit, and nothing else leads to them. -/
structure Owned (own₀ own : Uptr → Option (Nat × Nat)) (pmap : PageMap) (s : VmmState) : Prop where
  inv : VmmInv own s
  root : MapRoot own pmap
  keep : ∀ t l, own₀ t = some l → own t = some l
  fresh : own₀ pmap.directory = none
  down : ∀ t L p i, own t = some (L + 2, p) → i < 512 → OwnEntry own₀ pmap t i →
    ptePresent (pteAt s.mem t i) = true →
    ∃ c, IsTable (pteAt s.mem t i) c ∧ (pteAt s.mem t i).getLsbD 2 = true ∧ own₀ c = none
  away : ∀ t L p i c, own t = some (L + 2, p) → i < 512 → IsTable (pteAt s.mem t i) c →
    own₀ c = none → OwnEntry own₀ pmap t i

section Owned

variable {own₀ own own' : Uptr → Option (Nat × Nat)} {pmap kmap : PageMap} {s s' : VmmState}
  {t u c : Uptr} {i K L p key : Nat} {rest : List Uptr}

/-- What is free belongs to nobody. -/
theorem owned_free (h : Owned own₀ own pmap s) (hf : t ∈ s.free) : own₀ t = none := by
  have hnone := (h.inv.free t hf).2
  by_contra hold
  obtain ⟨l, hl⟩ := Option.ne_none_iff_exists'.mp hold
  rw [h.keep t l hl] at hnone
  cases hnone

/-- Memory off the tables may change, and fewer frames may be free. -/
theorem owned_same (h : Owned own₀ own pmap s)
    (hsame : ∀ u, own u ≠ none → ∀ j, j < 512 → pteAt s'.mem u j = pteAt s.mem u j)
    (hfree : ∀ f ∈ s'.free, f ∈ s.free) (hnodup : s'.free.Nodup) : Owned own₀ own pmap s' := by
  refine ⟨vmmInv_same h.inv hsame (fun f hf => h.inv.free f (hfree f hf)) hnodup, h.root, h.keep,
    h.fresh, fun t L p i ht hi hown hp => ?_, fun t L p i c ht hi hc hnone => ?_⟩
  · rw [hsame t (by rw [ht]; exact Option.some_ne_none _) i hi] at hp ⊢
    exact h.down t L p i ht hi hown hp
  · rw [hsame t (by rw [ht]; exact Option.some_ne_none _) i hi] at hc
    exact h.away t L p i c ht hi hc hnone

/-- So may an entry of level 1, and an entry may be cleared. -/
theorem owned_edit (h : Owned own₀ own pmap s) (hinv : VmmInv own s') (ht : own t = some (L, p))
    (he : EditAt 512 own (pteAt s.mem) (pteAt s'.mem) t i)
    (hnew : L = 1 ∨ ptePresent (pteAt s'.mem t i) = false) : Owned own₀ own pmap s' := by
  have hentry : ∀ u M q j, own u = some (M + 2, q) → j < 512 →
      ptePresent (pteAt s'.mem u j) = true → pteAt s'.mem u j = pteAt s.mem u j := by
    intro u M q j hu hj hp
    refine he u j (by rw [hu]; exact Option.some_ne_none _) hj fun hsame => ?_
    obtain ⟨rfl, rfl⟩ := hsame
    rcases hnew with hL | hnone
    · rw [ht] at hu
      cases hu
      omega
    · rw [hp] at hnone
      cases hnone
  refine ⟨hinv, h.root, h.keep, h.fresh, fun u M q j hu hj hown hp => ?_,
    fun u M q j c hu hj hc hnone => ?_⟩
  · have hold := hentry u M q j hu hj hp
    rw [hold] at hp ⊢
    exact h.down u M q j hu hj hown hp
  · rw [hentry u M q j hu hj hc.present] at hc
    exact h.away u M q j c hu hj hc hnone

/-- **A descent from an entry of the page map's own** comes to one of its tables. -/
theorem owned_descended (h : Owned own₀ own pmap s) (ht : own t = some (K + 1, p)) (hK : K ≠ 0)
    (hi : i < 512) (hown : OwnEntry own₀ pmap t i)
    (hd : Descended own own' s s' t i K p MM_PT_USER_TABLE_FLAGS c)
    (hcame : Came (pteAt s.mem t i) s s' c) : Owned own₀ own' pmap s' ∧ own₀ c = none := by
  obtain ⟨K, rfl⟩ := Nat.exists_eq_succ_of_ne_zero hK
  have hc : own₀ c = none := by
    cases hcame with
    | there hold _ =>
        obtain ⟨u, hu, -, hnone⟩ := h.down t K p i ht hi hown hold.present
        rw [← hold.table, hu.table]
        exact hnone
    | made _ hfree => exact owned_free h (by rw [hfree]; exact List.mem_cons_self)
  -- an entry is an old one, the one edited, or one of a new empty table
  have hentry : ∀ u M q j, own' u = some (M + 2, q) → j < 512 →
      ptePresent (pteAt s'.mem u j) = true → u = t ∧ j = i ∨
        own u = some (M + 2, q) ∧ pteAt s'.mem u j = pteAt s.mem u j := by
    intro u M q j hu hj hp
    by_cases hold : own u = none
    · obtain rfl := hd.known u (by rw [hu]; exact Option.some_ne_none _) hold
      cases hd.how with
      | created _ _ hsub =>
          rw [hsub j hj] at hp
          exact absurd hp (by decide)
      | shared hwas _ =>
          rw [child_label h.inv ht hK hi hwas] at hold
          cases hold
      | split hwas hl _ _ _ =>
          obtain ⟨v, hv, -⟩ := h.down t K p i ht hi hown hwas
          rw [hv.small] at hl
          cases hl
    · obtain ⟨⟨M', q'⟩, hlabel⟩ := Option.ne_none_iff_exists'.mp hold
      rw [hd.grow.keep _ _ _ hlabel] at hu
      cases hu
      by_cases hsame : u = t ∧ j = i
      · exact Or.inl hsame
      · exact Or.inr ⟨hlabel, hd.edit u j hold hj hsame⟩
  refine ⟨⟨hd.grow.inv, ⟨h.root.level, hd.grow.keep _ _ _ h.root.root⟩,
    fun u l hu => hd.grow.keep u l.1 l.2 (h.keep u l hu), h.fresh,
    fun u M q j hu hj hmine hp => ?_, fun u M q j v hu hj hv hnone => ?_⟩, hc⟩
  · rcases hentry u M q j hu hj hp with ⟨rfl, rfl⟩ | ⟨hold, hsame⟩
    · exact ⟨c, hd.table, hd.user rfl, hc⟩
    · rw [hsame] at hp ⊢
      exact h.down u M q j hold hj hmine hp
  · rcases hentry u M q j hu hj hv.present with ⟨rfl, rfl⟩ | ⟨hold, hsame⟩
    · exact hown
    · rw [hsame] at hv
      exact h.away u M q j v hold hj hv hnone

/-- **A page map starts with its directory alone.** -/
theorem owned_make (h : VmmInv own₀ s) (hr : MapRoot own₀ kmap) (hfree : s.free = c :: rest)
    (hs : Copied kmap.directory c s s') (hf : s'.free = rest) :
    Owned own₀ (Function.update own₀ c (some (kmap.level.num, 0)))
      { level := kmap.level, directory := c } s' := by
  have hc := (h.free c (by rw [hfree]; exact List.mem_cons_self)).2
  have hold : ∀ t l, own₀ t = some l → t ≠ c := by
    intro t l ht htc
    rw [htc, hc] at ht
    cases ht
  refine ⟨vmmInv_copied h hr.root hfree hs hf, ⟨hr.level, Function.update_self _ _ _⟩,
    fun t l ht => by rw [Function.update_of_ne (hold t l ht)]; exact ht, hc,
    fun t L p i ht hi hown hp => ?_, fun t L p i u ht hi hu hnone => ?_⟩
  · by_cases htc : t = c
    · rw [htc, hs.lower i (hown.2 htc)] at hp
      exact absurd hp (by decide)
    · rw [Function.update_of_ne htc, hown.1] at ht
      cases ht
  · rcases copied_entry h hr.root hs ht hi with h0 | ⟨v, hv, he⟩
    · rw [h0] at hu
      exact absurd hu.present (by decide)
    · rw [he] at hu
      rw [child_label h hv (Nat.succ_ne_zero L) hi hu] at hnone
      cases hnone

section Calls

variable {pages1gb : Bool} {va pa flags : U64}

/-- The first digit of an address of the lower half. -/
theorem topSlot_lower (hnum : pmap.level.num = 4 ∨ pmap.level.num = 5)
    (hva : va.toNat < 4096 * 512 ^ pmap.level.num / 2) : topSlot pmap va < 256 := by
  unfold topSlot slot pageNumber
  rcases hnum with hl | hl
  all_goals rw [hl] at hva ⊢
  all_goals omega

/-- A call for a user page passes the page map's own entries only. -/
theorem keptDown_owned (h : Owned own₀ own pmap s) (htop : topSlot pmap va < 256) :
    KeptWay pmap va MM_PT_USER_TABLE_FLAGS own s
      (fun own₁ s₁ _ t => Owned own₀ own₁ pmap s₁ ∧ own₀ t = none) fun _ => True := by
  have hroot := mapRoot_label h.root (pageNumber_lt pmap.level.num va)
  refine ⟨fun own₁ s₁ K t own₂ s₂ c hK hleads hown hd hcame => ?_, fun _ _ _ _ _ _ _ _ _ => trivial⟩
  obtain ⟨hgrow, hstage⟩ := leads_stage h.inv hroot hleads (Nat.succ_ne_zero K)
  have ht := stage_label hgrow.inv hstage
  refine owned_descended hown.1 ht hK (slot_lt _ K) ⟨hown.2, fun hdir => ?_⟩ hd hcame
  have hlabel := hown.1.root.root
  rw [← hdir, ht] at hlabel
  have hK1 : K = pmap.level.num - 1 := by
    have := congrArg Prod.fst (Option.some.inj hlabel)
    simp only at this
    omega
  rw [hK1]
  exact htop

/-- The table with the entry of the page at `va`. -/
abbrev PageTable (own : Uptr → Option (Nat × Nat)) (s : VmmState) (pmap : PageMap) (va : U64)
    (t : Uptr) : Prop :=
  Stage own s pmap.level.num pmap.directory (pageNumber pmap.level.num va) 1 t

/-- **`vmm_map` of a user page**: what it takes are tables of the page map. -/
theorem ends_vmmMap_owned (h : Owned own₀ own pmap s) (ha : MapArgs va pa flags MM_PAGE_4KB)
    (huser : flags.getLsbD 2 = true) (hva : va.toNat < 4096 * 512 ^ pmap.level.num / 2) :
    ends (vmmMap pages1gb pmap va pa flags MM_PAGE_4KB) s
      (fun _ s' => ∃ own', Owned own₀ own' pmap s' ∧ Paid pmap va pa flags own s own' s' ∧
        ∃ t, own₀ t = none ∧ PageTable own' s' pmap va t)
      (fun _ => True) := by
  have hroot := mapRoot_label h.root (pageNumber_lt pmap.level.num va)
  have hkept := keptDown_owned h (topSlot_lower (mapRoot_num h.root) hva)
  rw [← tableFlags_user huser] at hkept
  refine ends_mono (ends_vmmMap_way pages1gb (Or.inl ⟨rfl, rfl⟩) ha h.inv h.root
    (keptDown_and (keptDown_dug h.inv hroot) hkept) ⟨dug_root, h, h.fresh⟩) (fun _ s' hs' => ?_)
    fun _ _ => trivial
  obtain ⟨own₁, s₁, t, -, ⟨hdug, hown, hmine⟩, rfl⟩ := hs'
  obtain ⟨hgrow, hstage⟩ := leads_stage h.inv hroot hdug.leads (by decide)
  have ht := stage_label hgrow.inv hstage
  have hi := slot_lt (pageNumber pmap.level.num va) 0
  have hleaf := leafArgs_of_mapArgs (L := 1) ha (by omega) rfl
  exact ⟨own₁, owned_edit hown (grow_leaf hown.inv ht hi hleaf).inv ht
    (editAt_stored hown.inv ht hi _) (Or.inl rfl), paid_dug h.inv h.root hdug, t, hmine,
    stage_stored hown.inv ht hi hstage (Nat.le_refl 1)⟩

/-- `vmm_unmap` leaves every way down alone. -/
theorem wp_vmmUnmap_owned (va : U64) (h : Owned own₀ own pmap s) :
    wp (vmmUnmap pmap va) s fun _ s' => Owned own₀ own pmap s' ∧ s'.free = s.free ∧
      ∀ top root key M u, Stage own s top root key M u → Stage own s' top root key M u := by
  have hroot := mapRoot_label h.root (pageNumber_lt pmap.level.num va)
  refine wp_mono (wp_vmmUnmap_cleared va h.inv h.root) fun _ s' hc => ?_
  cases hc with
  | missed _ hs =>
      subst hs
      exact ⟨h, rfl, fun _ _ _ _ _ hs => hs⟩
  | @found K u g hit hw hreach hlev hs =>
      subst hs
      have hi := slot_lt (pageNumber pmap.level.num va) K
      have hu := reach_label (by decide) h.inv.labelled hroot hreach
      have hedit := editAt_stored h.inv hu hi 0
      have hgrow := grow_stored h.inv hu hi entryOk_zero fun v f hk => by
        exact absurd (pageKind_next hk).1 (by decide)
      refine ⟨owned_edit h hgrow.inv hu hedit (Or.inr ?_), rfl, fun top root key M v hs => ?_⟩
      · rw [pteAt_stored h.inv hu hi]
        rfl
      · obtain ⟨hr, g', hreach'⟩ := hs
        exact ⟨hr, g', reach_edit_leaf (by decide) h.inv.labelled hedit hu
          (not_next_of_hit hreach hw hlev) hr hreach'⟩

end Calls

/-! ## 5. What is freed -/

/-- All entries of a table of the page map's own that the recursion looks at are its own. -/
theorem ownEntry_limit (h : Owned own₀ own pmap s) (ht : own t = some (L + 1, p))
    (hmine : own₀ t = none) (hi : i < entryLimit (L + 1)) : OwnEntry own₀ pmap t i := by
  refine ⟨hmine, fun hdir => ?_⟩
  have hlabel := h.root.root
  rw [← hdir, ht] at hlabel
  have hL : L + 1 = pmap.level.num := congrArg Prod.fst (Option.some.inj hlabel)
  unfold entryLimit at hi
  rcases mapRoot_num h.root with hl | hl
  all_goals rw [hL, hl] at hi
  all_goals exact hi

/-- What is freed was made for the page map. -/
theorem subtables_own (h : Owned own₀ own pmap s) (ht : own t = some (L, p))
    (hmine : own₀ t = none) (hu : u ∈ subtables s.mem L t) : own₀ u = none := by
  induction L generalizing t p with
  | zero => cases hu
  | succ L ih =>
      cases L with
      | zero => cases hu
      | succ L =>
          obtain ⟨i, hi, he, hu⟩ := mem_subtables.mp hu
          have hi512 := Nat.lt_of_lt_of_le hi (entryLimit_le _)
          obtain ⟨htable, hc⟩ := child_user h.inv ht (Nat.succ_ne_zero _) hi512 he
          obtain ⟨c, hchild, -, hnone⟩ :=
            h.down t L p i ht hi512 (ownEntry_limit h ht hmine hi) htable.present
          have hcu : c = pteP2v (pteAt s.mem t i) := by rw [← hchild.table, htable.table]
          rw [hcu] at hnone
          rcases hu with rfl | hu
          · exact hnone
          · exact ih hc hnone hu

/-- **A table on a way is freed** if the digits of the way are below the limits. -/
theorem reach_subtables {M : Nat} {g : Hit → Hit} (h : Owned own₀ own pmap s)
    (ht : own t = some (L, key / 512 ^ L)) (hmine : own₀ t = none)
    (hreach : Reach 512 pageKind (pteAt s.mem) key L t M u g) (hM : M ≠ 0) (hML : M < L)
    (hdig : ∀ N, M ≤ N → N < L → slot key N < entryLimit (N + 1)) :
    u ∈ subtables s.mem L t := by
  induction L generalizing t g with
  | zero => exact absurd hML (Nat.not_lt_zero M)
  | succ L ih =>
      obtain ⟨L, rfl⟩ : ∃ T, L = T + 1 := ⟨L - 1, by omega⟩
      have hi := slot_lt key (L + 1)
      have hlim := hdig (L + 1) (by omega) (Nat.lt_succ_self _)
      obtain ⟨v, f, g', hk, hreach'⟩ := reach_uncons hreach (Nat.le_of_lt_succ hML)
      have hv := (isTable_of_next (h.inv.entries t _ _ _ ht hi) hk).1
      obtain ⟨c, hc, huser, hnone⟩ :=
        h.down t L _ _ ht hi (ownEntry_limit h ht hmine hlim) hv.present
      have hcv : c = v := by rw [← hc.table, hv.table]
      have hp2v := isTable_pteP2v hv
      have hchild := child_label h.inv ht (Nat.succ_ne_zero L) hi hv
      rw [← div_pow_digit] at hchild
      refine mem_subtables.mpr ⟨_, hlim, pteUserTable_iff.mpr ⟨hv.present, hv.small, huser⟩, ?_⟩
      rw [hp2v]
      by_cases hlast : M = L + 1
      · subst hlast
        cases hreach' with
        | here => exact Or.inl rfl
        | down hd _ => exact absurd (reach_level hd) (by omega)
      · exact Or.inr (ih hchild (hcv ▸ hnone) hreach' (by omega)
          fun N hlo hhi => hdig N hlo (Nat.lt_succ_of_lt hhi))

/-- The ways of the page maps there were pass none of the page map's own tables. -/
theorem reach_shared {r : Uptr} {M : Nat} {g : Hit → Hit} (h : Owned own₀ own pmap s)
    (hr : own r = some (L, key / 512 ^ L)) (hold : own₀ r ≠ none)
    (hreach : Reach 512 pageKind (pteAt s.mem) key L r M u g) : own₀ u ≠ none := by
  induction hreach with
  | here => exact hold
  | @down M u v g f hd hk ih =>
      have hu := reach_label (by decide) h.inv.labelled hr hd
      obtain ⟨hv, -, hM⟩ := isTable_of_next (h.inv.entries u _ _ _ hu (slot_lt key M)) hk
      obtain ⟨M, rfl⟩ : ∃ N, M = N + 1 := ⟨M - 1, by omega⟩
      intro hnone
      exact ih (h.away u M _ _ v hu (slot_lt key (M + 1)) hv hnone).1

/-- The frames `vmm_destroy_page_map` frees, the last one first. -/
def freedFrames (m : Mem) (pmap : PageMap) : List Uptr :=
  pmap.directory :: (subtables m pmap.level.num pmap.directory).reverse

/-- What a page map's end leaves: its frames are free, and all other page maps as they were. -/
structure Gone (own₀ : Uptr → Option (Nat × Nat)) (pmap : PageMap) (s s' : VmmState) : Prop where
  free : s'.free = freedFrames s.mem pmap ++ s.free
  others : ∀ q, MapRoot own₀ q → ∀ va, resolve s'.mem q va = resolve s.mem q va

theorem freedFrames_nodup (h : Owned own₀ own pmap s) : (freedFrames s.mem pmap).Nodup := by
  have hroot := h.root.root
  refine List.nodup_cons.mpr ⟨fun hin => ?_, ?_⟩
  · obtain ⟨K, q, hq, -, hK, -⟩ := subtables_label h.inv hroot (List.mem_reverse.mp hin)
    rw [hroot] at hq
    cases hq
    omega
  · exact List.nodup_reverse.mpr (subtables_nodup h.inv hroot)

/-- All of them are tables made for the page map. -/
theorem freedFrames_own (h : Owned own₀ own pmap s) (hu : u ∈ freedFrames s.mem pmap) :
    own u ≠ none ∧ own₀ u = none := by
  have hroot := h.root.root
  rcases List.mem_cons.mp hu with rfl | hu
  · exact ⟨by rw [hroot]; exact Option.some_ne_none _, h.fresh⟩
  · obtain ⟨K, q, hq, -⟩ := subtables_label h.inv hroot (List.mem_reverse.mp hu)
    exact ⟨by rw [hq]; exact Option.some_ne_none _,
      subtables_own h hroot h.fresh (List.mem_reverse.mp hu)⟩

/-- **`vmm_destroy_page_map` frees tables of the page map only**, and no other page map changes. -/
theorem wp_vmmDestroyPageMap (h : Owned own₀ own pmap s) :
    wp (vmmDestroyPageMap false (some pmap)) s fun r s' => r = none ∧ Gone own₀ pmap s s' := by
  have hroot := h.root.root
  have hdestroy := wp_vmmDestroyTables (s := s) h.inv hroot fun _ _ _ _ => rfl
  unfold vmmDestroyPageMap
  simp only [Bool.false_eq_true, if_false, wp_bind]
  refine wp_mono hdestroy fun _ s₁ hfreed => ?_
  rw [wp_pmmFreeFrame, wp_pure, frame_round (h.inv.frame _ _ _ hroot)]
  refine ⟨rfl, congrArg (pmap.directory :: ·) hfreed.free, fun q hq va => ?_⟩
  have hkey := pageNumber_lt q.level.num va
  have hlabel := mapRoot_label hq hkey
  have hold : own₀ q.directory ≠ none := by rw [hlabel]; exact Option.some_ne_none _
  -- the walk passes tables of `own₀` only
  refine congrArg (Option.map fun hit : Hit => hit.pa va) (look_congr_reach fun K u g hreach => ?_)
  have hu := reach_shared h (h.keep _ _ hlabel) hold hreach
  obtain ⟨⟨M, p⟩, hup⟩ := Option.ne_none_iff_exists'.mp hu
  refine hfreed.off u _ (h.inv.frame u M p (h.keep _ _ hup)) (fun hdir => hu ?_) (fun hin => hu ?_)
    (slot_lt _ K)
  · rw [hdir]
    exact h.fresh
  · exact subtables_own h hroot h.fresh hin

end Owned

/-! ## 6. Runs -/

/-- What was done with a page map: the addresses mapped, the frames its calls took, and those its
    owner took for pages. -/
structure MapHistory where
  mapped : List U64
  tables : List Uptr
  pages : List Uptr

/-- The frames taken between two states; no call of a run gives one back. -/
def takenFrames (s s' : VmmState) : List Uptr := s.free.take (s.free.length - s'.free.length)

/-- The states from the one in which `vmm_make_page_map` returns `pmap` on, for calls of user pages
    at addresses of the lower half. -/
inductive MapLife (pages1gb fiveLevel : Bool) (kmap : PageMap) (s₀ : VmmState) (pmap : PageMap) :
    MapHistory → VmmState → Prop where
  | made {s : VmmState} (hrun : vmmMakePageMap fiveLevel kmap s₀ = .ok (pmap, s)) :
      MapLife pages1gb fiveLevel kmap s₀ pmap
        { mapped := [], tables := takenFrames s₀ s, pages := [] } s
  | page {hist : MapHistory} {s s' : VmmState} {f : Uptr}
      (h : MapLife pages1gb fiveLevel kmap s₀ pmap hist s)
      (hrun : pmmAllocFrame s = .ok (f, s')) :
      MapLife pages1gb fiveLevel kmap s₀ pmap { hist with pages := f :: hist.pages } s'
  | map {hist : MapHistory} {s s' : VmmState} {va pa flags : U64}
      (h : MapLife pages1gb fiveLevel kmap s₀ pmap hist s)
      (ha : MapArgs va pa flags MM_PAGE_4KB) (huser : flags.getLsbD 2 = true)
      (hva : va.toNat < 4096 * 512 ^ pmap.level.num / 2)
      (hrun : vmmMap pages1gb pmap va pa flags MM_PAGE_4KB s = .ok ((), s')) :
      MapLife pages1gb fiveLevel kmap s₀ pmap
        { hist with mapped := va :: hist.mapped, tables := takenFrames s s' ++ hist.tables } s'
  | unmap {hist : MapHistory} {s s' : VmmState} (va : U64)
      (h : MapLife pages1gb fiveLevel kmap s₀ pmap hist s)
      (hrun : vmmUnmap pmap va s = .ok ((), s')) : MapLife pages1gb fiveLevel kmap s₀ pmap hist s'

/-- Page maps in one memory, the kernel's among them, whose tables `own₀` labels. -/
structure MapStart (fiveLevel : Bool) (kmap : PageMap) (own₀ : Uptr → Option (Nat × Nat))
    (s₀ : VmmState) : Prop where
  inv : VmmInv own₀ s₀
  root : MapRoot own₀ kmap
  level : kmap.level = if fiveLevel then .PML5 else .PML4

/-- The tables made for a page map are those its calls took, and they lie on the ways of the
    addresses mapped. -/
structure LifeInv (own₀ own : Uptr → Option (Nat × Nat)) (pmap : PageMap) (hist : MapHistory)
    (s : VmmState) : Prop where
  owned : Owned own₀ own pmap s
  tables : ∀ t, t ∈ hist.tables ↔ own t ≠ none ∧ own₀ t = none
  once : hist.tables.Nodup
  way : ∀ t ∈ hist.tables, t = pmap.directory ∨ ∃ va ∈ hist.mapped, ∃ M, M ≠ 0 ∧
    Stage own s pmap.level.num pmap.directory (pageNumber pmap.level.num va) M t
  leaf : ∀ va ∈ hist.mapped, va.toNat < 4096 * 512 ^ pmap.level.num / 2 ∧
    ∃ t, own₀ t = none ∧ PageTable own s pmap va t
  pages : ∀ f ∈ hist.pages, own f = none ∧ f ∉ s.free

section Runs

variable {own₀ own : Uptr → Option (Nat × Nat)} {pmap kmap : PageMap} {s₀ s s' : VmmState}
  {pages1gb fiveLevel : Bool} {hist : MapHistory} {va pa flags : U64} {f : Uptr}

theorem takenFrames_eq {taken : List Uptr} (h : s.free = taken ++ s'.free) :
    takenFrames s s' = taken := by
  unfold takenFrames
  rw [h, List.length_append, Nat.add_sub_cancel]
  exact List.take_left

theorem lifeInv_made (h : MapStart fiveLevel kmap own₀ s₀)
    (hrun : vmmMakePageMap fiveLevel kmap s₀ = .ok (pmap, s)) :
    ∃ own, LifeInv own₀ own pmap { mapped := [], tables := takenFrames s₀ s, pages := [] } s := by
  cases hfree : s₀.free with
  | nil =>
      have hstops : Stops (vmmMakePageMap fiveLevel kmap) s₀ noFrames :=
        stops_bind_left (pmmAllocFrame_stops hfree)
      rw [show vmmMakePageMap fiveLevel kmap s₀ = .error noFrames from hstops] at hrun
      cases hrun
  | cons c rest =>
      have hc := (h.inv.free c (by rw [hfree]; exact List.mem_cons_self)).2
      obtain ⟨rfl, hcopied, hrest⟩ :=
        (wp_of_eq hrun).mp (wp_vmmMakePageMap h.inv h.level h.root.root hfree)
      have htaken : takenFrames s₀ s = [c] := takenFrames_eq (by rw [hfree, hrest]; rfl)
      refine ⟨_, owned_make h.inv h.root hfree hcopied hrest, fun t => ?_, ?_, fun t ht => ?_,
        fun _ hva => absurd hva List.not_mem_nil, fun _ hf => absurd hf List.not_mem_nil⟩
      · rw [htaken, List.mem_singleton]
        constructor
        · rintro rfl
          rw [Function.update_self]
          exact ⟨Option.some_ne_none _, hc⟩
        · rintro ⟨ht, hold⟩
          by_contra htc
          rw [Function.update_of_ne htc] at ht
          exact ht hold
      · rw [htaken]
        exact List.nodup_singleton c
      · rw [htaken] at ht
        exact Or.inl (List.mem_singleton.mp ht)

theorem lifeInv_page (h : LifeInv own₀ own pmap hist s) (hrun : pmmAllocFrame s = .ok (f, s')) :
    LifeInv own₀ own pmap { hist with pages := f :: hist.pages } s' := by
  have hinv := h.owned.inv
  cases hfree : s.free with
  | nil =>
      rw [show pmmAllocFrame s = .error noFrames from pmmAllocFrame_stops hfree] at hrun
      cases hrun
  | cons c rest =>
      obtain ⟨rfl, rfl⟩ : f = c ∧ s' = s.taken c rest :=
        (wp_of_eq hrun).mp ((wp_pmmAllocFrame hfree fun g t => g = c ∧ t = s.taken c rest).mpr
          ⟨rfl, rfl⟩)
      have hnd := hinv.nodup
      rw [hfree, List.nodup_cons] at hnd
      have hmem : f ∈ s.free := by rw [hfree]; exact List.mem_cons_self
      have hrest : ∀ g ∈ rest, g ∈ s.free := fun g hg => by
        rw [hfree]
        exact List.mem_cons_of_mem _ hg
      have hsame : ∀ u, own u ≠ none → ∀ j, j < 512 →
          pteAt (s.taken f rest).mem u j = pteAt s.mem u j := fun u hu j hj =>
        taken_pte hinv hfree hu hj
      refine ⟨owned_same h.owned hsame hrest hnd.2, h.tables, h.once, fun t ht => ?_,
        fun va hva => ?_, fun g hg => ?_⟩
      · rcases h.way t ht with hdir | ⟨va, hva, M, hM, hs⟩
        · exact Or.inl hdir
        · exact Or.inr ⟨va, hva, M, hM, stage_same hinv hsame hs⟩
      · obtain ⟨hlow, t, hnone, ht⟩ := h.leaf va hva
        exact ⟨hlow, t, hnone, stage_same hinv hsame ht⟩
      · rcases List.mem_cons.mp hg with rfl | hg
        · exact ⟨(hinv.free g hmem).2, hnd.1⟩
        · obtain ⟨hnone, hout⟩ := h.pages g hg
          exact ⟨hnone, fun hin => hout (hrest g hin)⟩

theorem lifeInv_map (h : LifeInv own₀ own pmap hist s) (ha : MapArgs va pa flags MM_PAGE_4KB)
    (huser : flags.getLsbD 2 = true) (hva : va.toNat < 4096 * 512 ^ pmap.level.num / 2)
    (hrun : vmmMap pages1gb pmap va pa flags MM_PAGE_4KB s = .ok ((), s')) :
    ∃ own', LifeInv own₀ own' pmap
      { hist with mapped := va :: hist.mapped, tables := takenFrames s s' ++ hist.tables } s' := by
  have hinv := h.owned.inv
  have hr := h.owned.root
  obtain ⟨own', howned, ⟨hput, taken, hfree, -, htaken⟩, hleaf⟩ :=
    ends_ok (ends_vmmMap_owned h.owned ha huser hva) hrun
  have hgrow := (topMapped_put hinv hr (leafArgs_of_mapArgs (L := 1) ha (by omega) rfl) hput).grow
  have hstage : ∀ top root key M u, M ≠ 0 → Stage own s top root key M u →
      Stage own' s' top root key M u := fun top root key M u hM hs =>
    stage_put hinv hr (by decide) hs hput (by omega)
  have hnd := hinv.nodup
  rw [hfree, List.nodup_append] at hnd
  have hfresh : ∀ t ∈ taken, own t = none ∧ own₀ t = none := fun t ht => by
    have hin : t ∈ s.free := by rw [hfree]; exact List.mem_append_left _ ht
    exact ⟨(hinv.free t hin).2, owned_free h.owned hin⟩
  have hlabel : ∀ t ∈ taken, own' t ≠ none := fun t ht => by
    obtain ⟨M, -, hs⟩ := htaken t ht
    rw [stage_label howned.inv hs]
    exact Option.some_ne_none _
  have hkeep : ∀ t, own t ≠ none → own' t ≠ none := fun t ht => by
    obtain ⟨⟨L, p⟩, hl⟩ := Option.ne_none_iff_exists'.mp ht
    rw [hgrow.keep _ _ _ hl]
    exact Option.some_ne_none _
  refine ⟨own', howned, fun t => ?_, ?_, fun t ht => ?_, fun va' hva' => ?_, fun g hg => ?_⟩
  · rw [takenFrames_eq hfree, List.mem_append, h.tables]
    constructor
    · rintro (ht | ht)
      · exact ⟨hlabel t ht, (hfresh t ht).2⟩
      · exact ⟨hkeep t ht.1, ht.2⟩
    · rintro ⟨ht, hnone⟩
      rcases hgrow.fresh t ht with hold | hin
      · exact Or.inr ⟨hold, hnone⟩
      · rw [hfree] at hin
        rcases List.mem_append.mp hin with hin | hin
        · exact Or.inl hin
        · exact absurd (howned.inv.free t hin).2 ht
  · rw [takenFrames_eq hfree]
    refine List.nodup_append.mpr ⟨hnd.1, h.once, fun a ha b hb hab => ?_⟩
    exact ((h.tables b).mp hb).1 (hab ▸ (hfresh a ha).1)
  · rw [takenFrames_eq hfree] at ht
    rcases List.mem_append.mp ht with ht | ht
    · obtain ⟨M, hM, hs⟩ := htaken t ht
      exact Or.inr ⟨va, List.mem_cons_self, M, by omega, hs⟩
    · rcases h.way t ht with hdir | ⟨x, hx, M, hM, hs⟩
      · exact Or.inl hdir
      · exact Or.inr ⟨x, List.mem_cons_of_mem va hx, M, hM, hstage _ _ _ _ _ hM hs⟩
  · rcases List.mem_cons.mp hva' with rfl | hold
    · exact ⟨hva, hleaf⟩
    · obtain ⟨hlow, t, hnone, ht⟩ := h.leaf va' hold
      exact ⟨hlow, t, hnone, hstage _ _ _ _ _ (by decide) ht⟩
  · obtain ⟨hnone, hout⟩ := h.pages g hg
    refine ⟨?_, fun hin => hout (hgrow.suffix.subset hin)⟩
    by_contra hnew
    rcases hgrow.fresh g hnew with hold | hin
    · exact hold hnone
    · exact hout hin

theorem lifeInv_unmap (h : LifeInv own₀ own pmap hist s)
    (hrun : vmmUnmap pmap va s = .ok ((), s')) : LifeInv own₀ own pmap hist s' := by
  obtain ⟨howned, hfree, hstage⟩ := (wp_of_eq hrun).mp (wp_vmmUnmap_owned va h.owned)
  refine ⟨howned, h.tables, h.once, fun t ht => ?_, fun va hva => ?_, fun g hg => ?_⟩
  · rcases h.way t ht with hdir | ⟨x, hx, M, hM, hs⟩
    · exact Or.inl hdir
    · exact Or.inr ⟨x, hx, M, hM, hstage _ _ _ _ _ hs⟩
  · obtain ⟨hlow, t, hnone, ht⟩ := h.leaf va hva
    exact ⟨hlow, t, hnone, hstage _ _ _ _ _ ht⟩
  · rw [hfree]
    exact h.pages g hg

theorem lifeInv_of_life (h₀ : MapStart fiveLevel kmap own₀ s₀)
    (h : MapLife pages1gb fiveLevel kmap s₀ pmap hist s) : ∃ own, LifeInv own₀ own pmap hist s := by
  induction h with
  | made hrun => exact lifeInv_made h₀ hrun
  | page _ hrun ih =>
      obtain ⟨own, ih⟩ := ih
      exact ⟨own, lifeInv_page ih hrun⟩
  | map _ ha huser hva hrun ih =>
      obtain ⟨own, ih⟩ := ih
      exact lifeInv_map ih ha huser hva hrun
  | unmap va _ hrun ih =>
      obtain ⟨own, ih⟩ := ih
      exact ⟨own, lifeInv_unmap ih hrun⟩

/-- **What the end of a page map should do**: its own tables are freed, each once, no page and no
    table of another page map, and all other page maps resolve what they did. -/
structure Destroyed (own₀ : Uptr → Option (Nat × Nat)) (hist : MapHistory) (s s' : VmmState) :
    Prop where
  frees : ∃ freed, s'.free = freed ++ s.free ∧ freed.Perm hist.tables ∧ freed.Nodup ∧
    ∀ f ∈ freed, f ∉ hist.pages ∧ own₀ f = none
  others : ∀ q, MapRoot own₀ q → ∀ va, resolve s'.mem q va = resolve s.mem q va

/-- The digit of a table of level 4, and bit 47. -/
theorem slot_bit47 (va : U64) : slot (pageNumber 5 va) 3 < 256 ↔ va.getLsbD 47 = false := by
  have hbit : va.getLsbD 47 = decide (va.toNat / 2 ^ 47 % 2 = 1) := Nat.testBit_eq_decide_div_mod_eq
  rw [hbit, decide_eq_false_iff_not]
  unfold slot pageNumber
  omega

/-- The tables of a way are freed unless it leaves a PML4 by its upper half. -/
theorem way_freed {t : Uptr} {M : Nat} (h : Owned own₀ own pmap s)
    (hva : va.toNat < 4096 * 512 ^ pmap.level.num / 2)
    (hok : pmap.level = .PML4 ∨ va.getLsbD 47 = false) (hM : M ≠ 0)
    (hs : Stage own s pmap.level.num pmap.directory (pageNumber pmap.level.num va) M t) :
    t ∈ freedFrames s.mem pmap := by
  have hnum := mapRoot_num h.root
  have htop := topSlot_lower hnum hva
  obtain ⟨hroot, g, hreach⟩ := hs
  by_cases hML : M < pmap.level.num
  · refine List.mem_cons_of_mem _ (List.mem_reverse.mpr (reach_subtables h hroot h.fresh hreach hM
      hML fun N hlo hhi => ?_))
    unfold topSlot at htop
    by_cases hN : N = pmap.level.num - 1
    · rw [hN]
      unfold entryLimit
      rwa [if_pos (by omega)]
    · by_cases h3 : N = 3
      · have hfive : pmap.level.num = 5 := by omega
        rcases hok with hl | hbit
        · rw [hl] at hfive
          cases hfive
        · rw [h3, hfive]
          exact (slot_bit47 va).mpr hbit
      · unfold entryLimit
        rw [if_neg (by omega)]
        exact slot_lt _ N
  · have hle := reach_level hreach
    obtain rfl : M = pmap.level.num := by omega
    cases hreach with
    | here => exact List.mem_cons_self
    | down hd _ =>
        have := reach_level hd
        omega

/-- What was not leaked was mapped with bit 47 clear, or there are four levels. -/
theorem bit47_of_destroyed (hi : LifeInv own₀ own pmap hist s) (hl : pmap.level ≠ .PML4)
    (hall : wp (vmmDestroyPageMap false (some pmap)) s
      fun r s' => r = none ∧ Destroyed own₀ hist s s') (hva : va ∈ hist.mapped) :
    va.getLsbD 47 = false := by
  have howned := hi.owned
  obtain ⟨_, s', -, ⟨-, hgone⟩, -, hdone⟩ := wp_and (wp_vmmDestroyPageMap howned) hall
  have hlevel : pmap.level = .PML5 := by
    rcases howned.root.level with h4 | h5
    · exact absurd h4 hl
    · exact h5
  have hnum : pmap.level.num = 5 := by rw [hlevel]; rfl
  -- the table with the page's entry is among the freed ones
  obtain ⟨freed, hfree, hperm, -, -⟩ := hdone.frees
  have hfreed : freed = freedFrames s.mem pmap := by
    rw [hgone.free] at hfree
    exact (List.append_cancel_right hfree).symm
  obtain ⟨-, t, hnone, ht⟩ := hi.leaf va hva
  have hlabel := stage_label howned.inv ht
  have hin : t ∈ freedFrames s.mem pmap := by
    rw [← hfreed]
    refine hperm.mem_iff.mpr ((hi.tables t).mpr ⟨?_, hnone⟩)
    rw [hlabel]
    exact Option.some_ne_none _
  have hroot := howned.root.root
  rcases List.mem_cons.mp hin with hdir | hin
  · rw [hdir, hroot, hnum] at hlabel
    cases hlabel
  · obtain ⟨K, q, hq, -, -, -, hdig⟩ := subtables_label howned.inv hroot (List.mem_reverse.mp hin)
    rw [hlabel, hnum] at hq
    cases hq
    have h3 := hdig 3 (by omega) (by omega)
    rw [Nat.div_div_eq_div_mul] at h3
    exact (slot_bit47 va).mp h3

/-- Elsewhere nothing is leaked. -/
theorem wp_destroyed (hi : LifeInv own₀ own pmap hist s)
    (hok : pmap.level = .PML4 ∨ ∀ va ∈ hist.mapped, va.getLsbD 47 = false) :
    wp (vmmDestroyPageMap false (some pmap)) s
      fun r s' => r = none ∧ Destroyed own₀ hist s s' := by
  have howned := hi.owned
  have hnodup := freedFrames_nodup howned
  have hown : ∀ f ∈ freedFrames s.mem pmap, own f ≠ none ∧ own₀ f = none := fun f hf =>
    freedFrames_own howned hf
  refine wp_mono (wp_vmmDestroyPageMap howned) fun r s' hgone => ⟨hgone.1,
    ⟨_, hgone.2.free, ?_, hnodup, fun f hf => ?_⟩, hgone.2.others⟩
  · refine (List.perm_ext_iff_of_nodup hnodup hi.once).mpr fun t => ⟨fun ht => ?_, fun ht => ?_⟩
    · exact (hi.tables t).mpr (hown t ht)
    · rcases hi.way t ht with rfl | ⟨va, hva, M, hM, hs⟩
      · exact List.mem_cons_self
      · exact way_freed howned (hi.leaf va hva).1 (hok.imp_right fun hall => hall va hva) hM hs
  · exact ⟨fun hin => (hown f hf).1 (hi.pages f hin).1, (hown f hf).2⟩

/-- **`vmm_destroy_page_map` after a run** does what it should exactly if there are four levels, or
    no address with bit 47 set was mapped. -/
theorem vmmDestroyPageMap_exact (h₀ : MapStart fiveLevel kmap own₀ s₀)
    (h : MapLife pages1gb fiveLevel kmap s₀ pmap hist s) :
    wp (vmmDestroyPageMap false (some pmap)) s
        (fun r s' => r = none ∧ Destroyed own₀ hist s s') ↔
      pmap.level = .PML4 ∨ ∀ va ∈ hist.mapped, va.getLsbD 47 = false := by
  obtain ⟨own, hi⟩ := lifeInv_of_life h₀ h
  refine ⟨fun hall => ?_, wp_destroyed hi⟩
  exact Classical.or_iff_not_imp_left.mpr fun hl va hva => bit47_of_destroyed hi hl hall hva

end Runs

/-! ## 7. One page -/

/-- The label of an empty directory. -/
abbrev emptyLabel (pmap : PageMap) : Uptr → Option (Nat × Nat) := fun u =>
  if u = pmap.directory then some (pmap.level.num, 0) else none

theorem mapStart_empty {fiveLevel : Bool} {kmap : PageMap} (h : EmptyMap kmap zeroedState)
    (hl : kmap.level = if fiveLevel then .PML5 else .PML4) :
    MapStart fiveLevel kmap (emptyLabel kmap) zeroedState :=
  ⟨(isPageMap_empty h).inv, (isPageMap_empty h).root, hl⟩

/-- A page map made in zeroed memory, with one page. -/
theorem mapLife_onePage {fiveLevel : Bool} {kmap : PageMap} {va : U64}
    (h₀ : MapStart fiveLevel kmap (emptyLabel kmap) zeroedState)
    (ha : MapArgs va 0x200000 MM_PT_FLAG_USER MM_PAGE_4KB)
    (hva : va.toNat < 4096 * 512 ^ kmap.level.num / 2) :
    ∃ hist s, MapLife true fiveLevel kmap zeroedState
      { level := kmap.level, directory := 0x2000 } hist s ∧ hist.mapped = [va] := by
  obtain ⟨p, s, hmake, rfl, -, hfree⟩ := wp_vmmMakePageMap h₀.inv h₀.level h₀.root.root
    (show zeroedState.free = 0x2000 :: _ from rfl)
  have hmade : MapLife true fiveLevel kmap zeroedState _ _ s := .made hmake
  obtain ⟨own, hi⟩ := lifeInv_of_life h₀ hmade
  obtain ⟨_, s', hmap, -⟩ := wp_vmmMap_4KB true ha hi.owned.inv hi.owned.root
    (by rw [hfree]; decide)
  exact ⟨_, s', .map hmade ha rfl hva hmap, rfl⟩

/-- The page map of a task that has one page is given back. -/
theorem vmmDestroyPageMap_exact_onePage : ∃ hist s, hist.mapped = [0x400000] ∧
    wp (vmmDestroyPageMap false (some { level := .PML4, directory := 0x2000 })) s
      fun r s' => r = none ∧ Destroyed (emptyLabel zeroedMap) hist s s' := by
  have h₀ : MapStart false zeroedMap (emptyLabel zeroedMap) zeroedState :=
    mapStart_empty zeroedMap_empty rfl
  have ha : MapArgs 0x400000 0x200000 MM_PT_FLAG_USER MM_PAGE_4KB :=
    ⟨Or.inl rfl, rfl, rfl, by simp, rfl⟩
  obtain ⟨hist, s, hlife, hmapped⟩ := mapLife_onePage h₀ ha (by decide)
  exact ⟨hist, s, hmapped, (vmmDestroyPageMap_exact h₀ hlife).mpr (Or.inl rfl)⟩

/-- A page map of five levels in zeroed memory. -/
def fiveMap : PageMap := { level := .PML5, directory := 0x1000 }

theorem fiveMap_empty : EmptyMap fiveMap zeroedState :=
  ⟨Or.inr rfl, zeroedMap_empty.directory, zeroedMap_empty.empty, zeroedMap_empty.free,
    zeroedMap_empty.nodup⟩

/-- With five levels the tables of a page with bit 47 set are lost. -/
theorem vmmDestroyPageMap_leaks : ∃ hist s,
    MapLife true true fiveMap zeroedState { level := .PML5, directory := 0x2000 } hist s ∧
      hist.mapped = [0x800000000000] ∧
      ¬ wp (vmmDestroyPageMap false (some { level := .PML5, directory := 0x2000 })) s
        fun r s' => r = none ∧ Destroyed (emptyLabel fiveMap) hist s s' := by
  have h₀ : MapStart true fiveMap (emptyLabel fiveMap) zeroedState :=
    mapStart_empty fiveMap_empty rfl
  have ha : MapArgs 0x800000000000 0x200000 MM_PT_FLAG_USER MM_PAGE_4KB :=
    ⟨Or.inl rfl, rfl, rfl, by simp, rfl⟩
  obtain ⟨hist, s, hlife, hmapped⟩ := mapLife_onePage h₀ ha (by decide)
  obtain ⟨own, hi⟩ := lifeInv_of_life h₀ hlife
  refine ⟨hist, s, hlife, hmapped, fun hall => ?_⟩
  have hva : 0x800000000000 ∈ hist.mapped := by
    rw [hmapped]
    exact List.mem_cons_self
  exact absurd (bit47_of_destroyed hi (by decide) hall hva) (by decide)

end Slightx
