/-
  File:      Slightx/Mem/PmmRuns.lean
  Subject:   Runs of the physical page allocator.

  A run starts with `pmm_load` and goes on with any number of allocations and of frees of live
  ranges. `PmmInv` is what every state of a run satisfies: pages marked free are usable and no
  part of the bitmap, live ranges are marked, usable and share no page, and no bit beyond the
  last page is set.

  The scan of `pmm_try_alloc` tries every base below the page count, but looks at the whole run
  from there, also where it leaves the memory: the bits beyond the last page are clear, and
  beyond them an assertion waits. The allocator is first fit as long as the scan does not get
  that far (`AllocFits`): a run is found before, or the last page is taken and stops it.
-/
import Slightx.Mem.PmmLoad
import Mathlib.Data.Nat.Find

namespace Slightx

open Lib

/-! ## 1. Free and taken pages -/

namespace Bitmap

variable (self : Bitmap) (m : Mem)

/-- Page `p` has a bit and it is clear. -/
def Free (p : Nat) : Prop := p / 8 < self.buffer.size.toNat ∧ self.bit m p = false

/-- Page `p` has a bit and it is set. -/
def Taken (p : Nat) : Prop := p / 8 < self.buffer.size.toNat ∧ self.bit m p = true

/-- The pages `base + j`, … , `base + n - 1` are free. -/
def RunFree (base n j : Nat) : Prop := ∀ i, j ≤ i → i < n → self.Free m (base + i)

/-- From page `base + j` on a taken page stops the run before its end. -/
def Blocked (base n j : Nat) : Prop :=
  ∃ i, j ≤ i ∧ i < n ∧ (∀ k, j ≤ k → k < i → self.Free m (base + k)) ∧ self.Taken m (base + i)

variable {self m}

theorem not_free_of_taken {p : Nat} (h : self.Taken m p) : ¬ self.Free m p := by
  intro hf
  rw [Taken, hf.2] at h
  exact absurd h.2 (by decide)

theorem free_or_taken {p : Nat} (h : p / 8 < self.buffer.size.toNat) :
    self.Free m p ∨ self.Taken m p := by
  cases hb : self.bit m p with
  | false => exact Or.inl ⟨h, hb⟩
  | true => exact Or.inr ⟨h, hb⟩

/-- A taken page inside a run stops it, if every page before has a bit. -/
theorem blocked_of_taken {base n i : Nat} (hi : i < n) (ht : self.Taken m (base + i)) :
    self.Blocked m base n 0 := by
  classical
  have hex : ∃ i, self.Taken m (base + i) := ⟨i, ht⟩
  refine ⟨Nat.find hex, Nat.zero_le _, ?_, fun k _ hk => ?_, Nat.find_spec hex⟩
  · exact Nat.lt_of_le_of_lt (Nat.find_min' hex ht) hi
  · have hk' := Nat.find_min hex hk
    have hle := Nat.find_min' hex ht
    have hcov := ht.1
    exact (free_or_taken (by omega)).resolve_right hk'

/-- Where every page of a run has a bit, the run is free or stopped. -/
theorem runFree_or_blocked {base n : Nat}
    (hcov : ∀ i, i < n → (base + i) / 8 < self.buffer.size.toNat) :
    self.RunFree m base n 0 ∨ self.Blocked m base n 0 := by
  by_cases h : ∃ i, i < n ∧ self.Taken m (base + i)
  · obtain ⟨i, hi, ht⟩ := h
    exact Or.inr (blocked_of_taken hi ht)
  · refine Or.inl fun i _ hi => (free_or_taken (hcov i hi)).resolve_right fun ht => h ⟨i, hi, ht⟩

theorem not_runFree_of_blocked {base n j : Nat} (h : self.Blocked m base n j) :
    ¬ self.RunFree m base n j := by
  intro hr
  obtain ⟨i, hj, hi, _, ht⟩ := h
  exact not_free_of_taken ht (hr i hj hi)

section Rewritten

variable {m' : Mem} {R : Nat → Prop} [DecidablePred R]

/-- The free pages after the bits of `R` were set. -/
theorem free_of_set (hb : ∀ p, p / 8 < self.buffer.size.toNat →
    self.bit m' p = if R p then true else self.bit m p) (p : Nat) :
    self.Free m' p ↔ self.Free m p ∧ ¬ R p := by
  unfold Free
  by_cases hc : p / 8 < self.buffer.size.toNat
  · rw [hb p hc]
    by_cases hR : R p
    · simp [hR]
    · simp [hR]
  · simp [hc]

theorem taken_of_set (hb : ∀ p, p / 8 < self.buffer.size.toNat →
    self.bit m' p = if R p then true else self.bit m p) {p : Nat}
    (hR : R p → p / 8 < self.buffer.size.toNat) : self.Taken m' p ↔ self.Taken m p ∨ R p := by
  unfold Taken
  by_cases hc : p / 8 < self.buffer.size.toNat
  · rw [hb p hc]
    by_cases hR' : R p
    · simp [hc, hR']
    · simp [hR']
  · have hn : ¬ R p := fun h => hc (hR h)
    simp [hc, hn]

/-- The free pages after the bits of `R` were cleared. -/
theorem free_of_clear (hb : ∀ p, p / 8 < self.buffer.size.toNat →
    self.bit m' p = if R p then false else self.bit m p) {p : Nat}
    (hR : R p → p / 8 < self.buffer.size.toNat) : self.Free m' p ↔ self.Free m p ∨ R p := by
  unfold Free
  by_cases hc : p / 8 < self.buffer.size.toNat
  · rw [hb p hc]
    by_cases hR' : R p
    · simp [hc, hR']
    · simp [hR']
  · have hn : ¬ R p := fun h => hc (hR h)
    simp [hc, hn]

theorem taken_of_clear (hb : ∀ p, p / 8 < self.buffer.size.toNat →
    self.bit m' p = if R p then false else self.bit m p) (p : Nat) :
    self.Taken m' p ↔ self.Taken m p ∧ ¬ R p := by
  unfold Taken
  by_cases hc : p / 8 < self.buffer.size.toNat
  · rw [hb p hc]
    by_cases hR : R p
    · simp [hR]
    · simp [hR]
  · simp [hc]

end Rewritten

/-- One page of a free run. -/
theorem runFree_step {base n j : Nat} (hj : j < n) :
    self.RunFree m base n j ↔ self.Free m (base + j) ∧ self.RunFree m base n (j + 1) := by
  constructor
  · intro h
    exact ⟨h j (Nat.le_refl j) hj, fun i hi => h i (Nat.le_of_succ_le hi)⟩
  · intro h i hi hin
    rcases Nat.eq_or_lt_of_le hi with rfl | hi
    · exact h.1
    · exact h.2 i hi hin

/-- One page of a stopped run. -/
theorem blocked_step {base n j : Nat} (hj : j < n) :
    self.Blocked m base n j ↔
      self.Taken m (base + j) ∨ (self.Free m (base + j) ∧ self.Blocked m base n (j + 1)) := by
  constructor
  · intro h
    obtain ⟨i, hi, hin, hfree, ht⟩ := h
    rcases Nat.eq_or_lt_of_le hi with rfl | hi
    · exact Or.inl ht
    · exact Or.inr ⟨hfree j (Nat.le_refl j) hi, i, hi, hin,
        fun k hk => hfree k (Nat.le_of_succ_le hk), ht⟩
  · intro h
    rcases h with ht | ⟨hf, i, hi, hin, hfree, ht⟩
    · exact ⟨j, Nat.le_refl j, hj, fun k hk hk' => absurd hk' (Nat.not_lt.mpr hk), ht⟩
    · refine ⟨i, Nat.le_of_succ_le hi, hin, fun k hk hki => ?_, ht⟩
      rcases Nat.eq_or_lt_of_le hk with rfl | hk
      · exact hf
      · exact hfree k hk hki

theorem runFree_end {base n : Nat} : self.RunFree m base n n :=
  fun _ hi hin => absurd hin (Nat.not_lt.mpr hi)

theorem not_blocked_end {base n : Nat} : ¬ self.Blocked m base n n := by
  intro h
  obtain ⟨i, hi, hin, _⟩ := h
  exact Nat.not_lt.mpr hi hin

end Bitmap

/-! ## 2. The scan -/

section Scan

variable {self : Bitmap} (hv : self.Valid)

include hv

/-- **What a probe answers**: it returns exactly when the run is free or stopped by a taken
    page, and otherwise runs into the end of the bitmap. -/
theorem wp_probeRun {base n k : Nat} (h1 : 1 ≤ k) (hn : k ≤ n) (m : Mem)
    (Q : Bool → Mem → Prop) :
    wp (probeRun self base n k) m Q ↔
      (self.RunFree m base n (n - k) ∧ Q true m) ∨ (self.Blocked m base n (n - k) ∧ Q false m) := by
  induction k with
  | zero => exact absurd h1 (by decide)
  | succ k ih =>
      have hj : n - (k + 1) < n := by omega
      have hnext : n - (k + 1) + 1 = n - k := by omega
      rw [probeRun, wp_bind, wp_bitmapIsset, Bitmap.runFree_step hj, Bitmap.blocked_step hj, hnext]
      by_cases hcov : (base + (n - (k + 1))) / 8 < self.buffer.size.toNat
      · rcases Bitmap.free_or_taken (m := m) hcov with hf | ht
        · have hnt : ¬ self.Taken m (base + (n - (k + 1))) := fun ht =>
            Bitmap.not_free_of_taken ht hf
          simp only [hv, hcov, hf, hf.2, hnt, true_and, false_or]
          by_cases hlast : n - (k + 1) = n - 1
          · -- the last page of the run
            have hk : n - k = n := by omega
            rw [if_neg (by decide), if_pos hlast, wp_pure, hk]
            simp only [Bitmap.runFree_end, Bitmap.not_blocked_end, true_and, false_and, or_false]
          · rw [if_neg (by decide), if_neg hlast]
            exact ih (by omega) (by omega)
        · have hnf : ¬ self.Free m (base + (n - (k + 1))) := Bitmap.not_free_of_taken ht
          simp only [hv, hcov, ht, ht.2, hnf, true_and, false_and, or_false, false_or]
          rw [if_pos trivial, wp_pure]
      · have hnf : ¬ self.Free m (base + (n - (k + 1))) := fun hf => hcov hf.1
        have hnt : ¬ self.Taken m (base + (n - (k + 1))) := fun ht => hcov ht.1
        simp only [hcov, hnf, hnt, false_and, and_false, or_self]

/-- **What the scan answers**: the first base whose run is free, all bases before being stopped,
    or none if every base is stopped. -/
theorem wp_findRun {n total k : Nat} (h1 : 1 ≤ n) (hk : k ≤ total) (m : Mem)
    (Q : Option Nat → Mem → Prop) :
    wp (findRun self n total k) m Q ↔
      (∃ b, total - k ≤ b ∧ b < total ∧ (∀ c, total - k ≤ c → c < b → self.Blocked m c n 0) ∧
        self.RunFree m b n 0 ∧ Q (some b) m) ∨
      ((∀ c, total - k ≤ c → c < total → self.Blocked m c n 0) ∧ Q none m) := by
  induction k with
  | zero =>
      rw [findRun, wp_pure]
      constructor
      · intro h
        exact Or.inr ⟨fun c hc hc' => absurd hc' (by omega), h⟩
      · intro h
        rcases h with ⟨b, hb, hb', _⟩ | ⟨_, h⟩
        · exact absurd hb' (by omega)
        · exact h
  | succ k ih =>
      have hnext : total - (k + 1) + 1 = total - k := by omega
      rw [findRun, wp_bind, wp_probeRun hv h1 (Nat.le_refl n), Nat.sub_self, if_pos rfl,
        if_neg (by decide), wp_pure, ih (by omega)]
      constructor
      · intro h
        rcases h with ⟨hr, hq⟩ | ⟨hb, ⟨b, hkb, hbt, hbl, hr, hq⟩ | ⟨hbl, hq⟩⟩
        · exact Or.inl ⟨total - (k + 1), Nat.le_refl _, by omega,
            fun c hc hc' => absurd hc' (Nat.not_lt.mpr hc), hr, hq⟩
        · refine Or.inl ⟨b, by omega, hbt, fun c hc hcb => ?_, hr, hq⟩
          rcases Nat.eq_or_lt_of_le hc with rfl | hc
          · exact hb
          · exact hbl c (by omega) hcb
        · refine Or.inr ⟨fun c hc hct => ?_, hq⟩
          rcases Nat.eq_or_lt_of_le hc with rfl | hc
          · exact hb
          · exact hbl c (by omega) hct
      · intro h
        rcases h with ⟨b, hkb, hbt, hbl, hr, hq⟩ | ⟨hbl, hq⟩
        · rcases Nat.eq_or_lt_of_le hkb with rfl | hkb
          · exact Or.inl ⟨hr, hq⟩
          · exact Or.inr ⟨hbl _ (Nat.le_refl _) hkb,
              Or.inl ⟨b, by omega, hbt, fun c hc => hbl c (by omega), hr, hq⟩⟩
        · exact Or.inr ⟨hbl _ (Nat.le_refl _) (by omega),
            Or.inr ⟨fun c hc => hbl c (by omega), hq⟩⟩

end Scan

/-! ## 3. Marking and clearing a run -/

/-- The memory with the bits `page`, … , `page + n - 1` of the buffer set to `b`. -/
def Bitmap.withRun (self : Bitmap) (m : Mem) (page n : Nat) (b : Bool) : Mem :=
  runUp n (fun i m => self.withBit m (page + i) b) m

section WithRun

variable {self : Bitmap} {page n : Nat} {b : Bool}

theorem bit_withRun (m : Mem) (j : Nat) :
    self.bit (self.withRun m page n b) j =
      if page ≤ j ∧ j < page + n then b else self.bit m j := by
  have h := @Bitmap.bit_runUp_withBit self (fun _ => True) _ (fun i => page + i) b n m j
  simp only [if_true, true_and] at h
  unfold Bitmap.withRun
  rw [h]
  congr 1
  refine propext ⟨fun hex => ?_, fun hr => ⟨j - page, by omega, by omega⟩⟩
  obtain ⟨i, hi, rfl⟩ := hex
  omega

end WithRun

@[simp] theorem wp_pmmMarkPages (page n : Nat) (s : PmmState) (Q : Unit → PmmState → Prop) :
    wp (pmmMarkPages page n) s Q ↔
      (∀ i, i < n → s.pmm.allocatedPages.Valid ∧
        (page + i) / 8 < s.pmm.allocatedPages.buffer.size.toNat) ∧
      Q () { s with mem := s.pmm.allocatedPages.withRun s.mem page n true } := by
  unfold pmmMarkPages
  rw [wp_bind, wp_get, wp_onMem]
  exact wp_forUp_iff (fun i m R _ => by rw [wp_bitmapSet, and_assoc]) s.mem _

@[simp] theorem wp_pmmClearPages (page n : Nat) (s : PmmState) (Q : Unit → PmmState → Prop) :
    wp (pmmClearPages page n) s Q ↔
      (∀ i, i < n → s.pmm.allocatedPages.Valid ∧
        (page + i) / 8 < s.pmm.allocatedPages.buffer.size.toNat) ∧
      Q () { s with mem := s.pmm.allocatedPages.withRun s.mem page n false } := by
  unfold pmmClearPages
  rw [wp_bind, wp_get, wp_onMem]
  exact wp_forUp_iff (fun i m R _ => by rw [wp_bitmapClear, and_assoc]) s.mem _

/-! ## 4. One allocation -/

namespace PmmState

variable (s : PmmState)

/-- The number of pages the scan covers. -/
def pages : Nat := s.pmm.highestPage.toNat / 4096

/-- Page `p` is marked free. -/
def Free (p : Nat) : Prop := s.pmm.allocatedPages.Free s.mem p

/-- Page `p` is marked allocated. -/
def Taken (p : Nat) : Prop := s.pmm.allocatedPages.Taken s.mem p

/-- The run of `n` pages at `base` is free. -/
def RunFree (base n : Nat) : Prop := s.pmm.allocatedPages.RunFree s.mem base n 0

/-- The run of `n` pages at `base` is stopped by a taken page. -/
def Blocked (base n : Nat) : Prop := s.pmm.allocatedPages.Blocked s.mem base n 0

/-- Some run of `n` free pages lies below the highest page. -/
def FreeRun (n : Nat) : Prop := ∃ base, base + n ≤ s.pages ∧ s.RunFree base n

/-- The state after `n` pages at `base` are marked and zeroed. -/
def afterAlloc (base : Nat) (n : Usize) : PmmState :=
  let va := hhdmP2v s.hhdm (BitVec.ofNat 64 base * MM_PHYS_PAGE_SIZE)
  let marked := s.pmm.allocatedPages.withRun s.mem base n.toNat true
  { s with mem := fill marked va.toNat (n * MM_PHYS_PAGE_SIZE).toNat 0 }

end PmmState

/-- **First fit**: the call takes the first base whose run is free, all bases before being
    stopped, or fails if every base is stopped. -/
theorem wp_pmmTryAlloc {s : PmmState} (hv : s.pmm.allocatedPages.Valid) {n : Usize}
    (hn : 1 ≤ n.toNat) (Q : Uptr → PmmState → Prop) :
    wp (pmmTryAlloc n) s Q ↔
      (∃ base, base < s.pages ∧ (∀ c, c < base → s.Blocked c n.toNat) ∧ s.RunFree base n.toNat ∧
        hhdmP2v s.hhdm (BitVec.ofNat 64 base * MM_PHYS_PAGE_SIZE) ≠ 0 ∧
        Q (BitVec.ofNat 64 base * MM_PHYS_PAGE_SIZE) (s.afterAlloc base n)) ∨
      ((∀ c, c < s.pages → s.Blocked c n.toNat) ∧ Q 0 s) := by
  unfold pmmTryAlloc
  rw [wp_bind, wp_get, toNat_pmmGetPageCount]
  simp only [wp_bind, wp_onMem, wp_findRun hv hn (Nat.le_refl _), Nat.sub_self, Nat.zero_le,
    true_implies, true_and, wp_pure, wp_pmmMarkPages, wp_memset, hhdmV2p_hhdmP2v]
  constructor
  · intro h
    rcases h with ⟨b, hb, hbl, hr, _, hva, hq⟩ | h
    · exact Or.inl ⟨b, hb, hbl, hr, hva, hq⟩
    · exact Or.inr h
  · intro h
    rcases h with ⟨b, hb, hbl, hr, hva, hq⟩ | h
    · exact Or.inl ⟨b, hb, hbl, hr, fun i hi => ⟨hv, (hr i (Nat.zero_le i) hi).1⟩, hva, hq⟩
    · exact Or.inr h

/-! ## 5. The invariant -/

/-- A range of pages `pmm_try_alloc` returned. -/
structure Range where
  pa : Uptr
  count : Usize
  deriving DecidableEq, Repr

/-- Page `p` lies in the range. -/
def Range.Has (r : Range) (p : Nat) : Prop :=
  r.pa.toNat / 4096 ≤ p ∧ p < r.pa.toNat / 4096 + r.count.toNat

instance (r : Range) : DecidablePred r.Has := fun _ => inferInstanceAs (Decidable (_ ∧ _))

/-- What holds of every state of a run, `memmap` being the map loading started from and `live`
    the ranges handed out and not freed. -/
structure PmmInv (memmap : List MemmapEntry) (s : PmmState) (live : List Range) : Prop where
  top : s.pmm.highestPage.toNat = topAddress memmap
  direct : DirectMapOk memmap s.hhdm
  valid : s.pmm.allocatedPages.Valid
  /-- the bitmap's storage is whole pages of physical memory -/
  storage : ∃ base : Uptr, s.pmm.allocatedPages.buffer.data = hhdmP2v s.hhdm base ∧
    base.toNat % 4096 = 0 ∧ s.pmm.allocatedPages.buffer.size.toNat % 4096 = 0 ∧
    base.toNat + s.pmm.allocatedPages.buffer.size.toNat ≤ topAddress memmap
  free : ∀ p, p < s.pages → s.Free p → UsablePage memmap p ∧ ¬ s.BitmapPage p
  beyond : ∀ p, s.pages ≤ p → ¬ s.Taken p
  marked : ∀ r ∈ live, ∀ p, r.Has p →
    p < s.pages ∧ s.Taken p ∧ UsablePage memmap p ∧ ¬ s.BitmapPage p
  apart : live.Pairwise fun a b => ∀ p, ¬ (a.Has p ∧ b.Has p)

/-- **Loading establishes the invariant**, whenever it returns. -/
theorem pmmInv_load {s t : PmmState} (hs : BootOk s) (h : pmmLoad s = .ok ((), t)) :
    PmmInv s.memmap t [] := by
  obtain ⟨top, base, size, memmap, hc, hw⟩ := wp_pmmLoad hs
  have hrun : wp pmmLoad s fun _ t' => t' = t := ⟨(), t, h, rfl⟩
  rw [hw] at hrun
  obtain ⟨⟨hpos, _⟩, rfl⟩ := hrun
  have hsize : size.toNat % 4096 = 0 := by rw [hc.size_eq]; exact Nat.mul_mod_left _ _
  have htop : top.toNat / 4096 = pagesOf s.memmap := by rw [hc.top_eq]; rfl
  have hdata : (hhdmP2v s.hhdm base).toNat = base.toNat + s.hhdm.toNat := by
    have h1 := hs.direct.room
    have h2 := hc.below
    exact toNat_hhdmP2v (by omega)
  refine ⟨hc.top_eq, hs.direct, ⟨?_, hpos⟩, ⟨base, rfl, hc.aligned, hsize, hc.below⟩, ?_, ?_,
    fun r hr => absurd hr List.not_mem_nil, List.Pairwise.nil⟩
  · intro h0
    have h1 := hs.direct.pos
    rw [show hhdmP2v s.hhdm base = 0 from h0, show (0 : U64).toNat = 0 from rfl] at hdata
    omega
  · intro p hp hf
    have hp' : p < pagesOf s.memmap := by rw [← htop]; exact hp
    have hclear := (clear_loadedState (p := p) hf.1).mp hf.2
    rw [htop, hc.missing p hp'] at hclear
    rw [bitmapPage_loadedState hc.aligned hsize]
    exact Classical.byContradiction fun hn => hclear ⟨hp', hn⟩
  · intro p hp ht
    have hclear := (@clear_loadedState s top base size memmap p ht.1).mpr fun hlt =>
      absurd hlt.1 (Nat.not_lt.mpr hp)
    exact Bitmap.not_free_of_taken ht ⟨ht.1, hclear⟩

/-! ## 6. What one call does to a state of a run -/

section Step

variable {memmap : List MemmapEntry} {s : PmmState} {live : List Range}

theorem pages_le (h : PmmInv memmap s live) : 4096 * s.pages + s.hhdm.toNat ≤ 2 ^ 64 := by
  have h1 := h.direct.room
  have h2 := h.top
  unfold PmmState.pages
  omega

theorem toNat_runBytes {n : Usize} (h : 4096 * n.toNat < 2 ^ 64) :
    (n * MM_PHYS_PAGE_SIZE).toNat = 4096 * n.toNat := by
  rw [BitVec.toNat_mul, toNat_MM_PHYS_PAGE_SIZE, Nat.mul_comm, Nat.mod_eq_of_lt h]

/-- The address of a page below the highest, and where the direct map has it. -/
theorem pageAddr_facts (h : PmmInv memmap s live) {base : Nat} (hb : base < s.pages) :
    (BitVec.ofNat 64 base * MM_PHYS_PAGE_SIZE).toNat = 4096 * base ∧
      (hhdmP2v s.hhdm (BitVec.ofNat 64 base * MM_PHYS_PAGE_SIZE)).toNat =
        4096 * base + s.hhdm.toNat := by
  have hle := pages_le h
  have hpos := h.direct.pos
  have hpa := toNat_pageAddr (p := base) (by omega)
  refine ⟨hpa, ?_⟩
  rw [toNat_hhdmP2v (by rw [hpa]; omega), hpa]

/-- A page of a free run has a bit. -/
theorem runFree_covered {base n p : Nat} (hr : s.RunFree base n)
    (hp : base ≤ p ∧ p < base + n) : p / 8 < s.pmm.allocatedPages.buffer.size.toNat ∧ s.Free p := by
  have hf := hr (p - base) (Nat.zero_le _) (by omega)
  rw [Nat.add_sub_cancel' hp.1] at hf
  exact ⟨hf.1, hf⟩

/-- Zeroing free pages below the highest leaves the bitmap alone. -/
theorem bit_afterAlloc (h : PmmInv memmap s live) {base : Nat} {n : Usize}
    (hn : base + n.toNat ≤ s.pages) (hn1 : 1 ≤ n.toNat) (hr : s.RunFree base n.toNat) {p : Nat}
    (hp : p / 8 < s.pmm.allocatedPages.buffer.size.toNat) :
    s.pmm.allocatedPages.bit (s.afterAlloc base n).mem p =
      if base ≤ p ∧ p < base + n.toNat then true else s.pmm.allocatedPages.bit s.mem p := by
  have hle := pages_le h
  have hpos := h.direct.pos
  obtain ⟨b, hdata, hba, hsz, hbt⟩ := h.storage
  have hdn : (hhdmP2v s.hhdm b).toNat = b.toNat + s.hhdm.toNat :=
    toNat_hhdmP2v (by have := h.direct.room; have := h.valid.2; omega)
  have hlt : base < s.pages := by omega
  have hva := (pageAddr_facts h hlt).2
  have hbytes := toNat_runBytes (n := n) (by omega)
  rw [← bit_withRun]
  refine Bitmap.bit_sameOff (sameOff_fill (S := fun x =>
    4096 * base + s.hhdm.toNat ≤ x ∧ x < 4096 * base + s.hhdm.toNat + 4096 * n.toNat)
    fun x hx hx' => ?_) fun hin => ?_
  · rw [hva] at hx hx'
    rw [hbytes] at hx'
    exact ⟨hx, hx'⟩
  · -- a byte of the bitmap inside the run would lie on a free page
    rw [hdata, hdn] at hin
    have hq : (b.toNat + p / 8) / 4096 < base + n.toNat := by omega
    have hq' : base ≤ (b.toNat + p / 8) / 4096 := by omega
    refine (h.free _ (by omega) (runFree_covered hr ⟨hq', hq⟩).2).2 ?_
    unfold PmmState.BitmapPage
    rw [hdata, hhdmV2p_hhdmP2v]
    omega

/-- **Exactly the pages of the run become allocated.** -/
theorem free_afterAlloc (h : PmmInv memmap s live) {base : Nat} {n : Usize}
    (hn : base + n.toNat ≤ s.pages) (hn1 : 1 ≤ n.toNat) (hr : s.RunFree base n.toNat) (p : Nat) :
    (s.afterAlloc base n).Free p ↔ s.Free p ∧ ¬ (base ≤ p ∧ p < base + n.toNat) :=
  Bitmap.free_of_set (fun _ hq => bit_afterAlloc h hn hn1 hr hq) p

theorem taken_afterAlloc (h : PmmInv memmap s live) {base : Nat} {n : Usize}
    (hn : base + n.toNat ≤ s.pages) (hn1 : 1 ≤ n.toNat) (hr : s.RunFree base n.toNat) (p : Nat) :
    (s.afterAlloc base n).Taken p ↔ s.Taken p ∨ (base ≤ p ∧ p < base + n.toNat) :=
  Bitmap.taken_of_set (fun _ hq => bit_afterAlloc h hn hn1 hr hq)
    fun hin => (runFree_covered hr hin).1

/-- A free run is clear of the live ranges. -/
theorem run_apart (h : PmmInv memmap s live) {base n p : Nat} (hr : s.RunFree base n)
    (hp : base ≤ p ∧ p < base + n) : ∀ r ∈ live, ¬ r.Has p := by
  intro r hr' hhas
  exact Bitmap.not_free_of_taken (h.marked r hr' p hhas).2.1 (runFree_covered hr hp).2

/-- **Allocation keeps the invariant.** -/
theorem pmmInv_afterAlloc (h : PmmInv memmap s live) {base : Nat} {n : Usize}
    (hn : base + n.toNat ≤ s.pages) (hn1 : 1 ≤ n.toNat) (hr : s.RunFree base n.toNat) :
    PmmInv memmap (s.afterAlloc base n)
      (⟨BitVec.ofNat 64 base * MM_PHYS_PAGE_SIZE, n⟩ :: live) := by
  have hpage : (BitVec.ofNat 64 base * MM_PHYS_PAGE_SIZE).toNat / 4096 = base := by
    have hlt : base < s.pages := by omega
    rw [(pageAddr_facts h hlt).1]
    omega
  have hhas : ∀ p, Range.Has ⟨BitVec.ofNat 64 base * MM_PHYS_PAGE_SIZE, n⟩ p →
      base ≤ p ∧ p < base + n.toNat := by
    intro p hp
    unfold Range.Has at hp
    rw [hpage] at hp
    exact hp
  refine ⟨h.top, h.direct, h.valid, h.storage, fun p hp hf => ?_, fun p hp ht => ?_,
    fun r hr' p hp => ?_, List.pairwise_cons.mpr ⟨fun r hr' p hp => ?_, h.apart⟩⟩
  · exact h.free p hp ((free_afterAlloc h hn hn1 hr p).mp hf).1
  · rcases (taken_afterAlloc h hn hn1 hr p).mp ht with ht | hin
    · exact h.beyond p hp ht
    · exact absurd (Nat.lt_of_lt_of_le hin.2 hn) (Nat.not_lt.mpr hp)
  · rcases List.mem_cons.mp hr' with rfl | hr'
    · have hin := hhas p hp
      have hlt : p < s.pages := by omega
      have huse := h.free p hlt (runFree_covered hr hin).2
      exact ⟨hlt, (taken_afterAlloc h hn hn1 hr p).mpr (Or.inr hin), huse⟩
    · obtain ⟨hlt, ht, huse⟩ := h.marked r hr' p hp
      exact ⟨hlt, (taken_afterAlloc h hn hn1 hr p).mpr (Or.inl ht), huse⟩
  · exact run_apart h hr (hhas p hp.1) r hr' hp.2

/-- Fewer live ranges are live ranges. -/
theorem pmmInv_sublist (h : PmmInv memmap s live) {live' : List Range}
    (hl : live'.Sublist live) : PmmInv memmap s live' :=
  { h with
    marked := fun r hr => h.marked r (hl.subset hr)
    apart := h.apart.sublist hl }

/-- The state after the pages of `r` are cleared. -/
def PmmState.afterFree (s : PmmState) (r : Range) : PmmState :=
  { s with
    mem := s.pmm.allocatedPages.withRun s.mem (r.pa.toNat / 4096) r.count.toNat false }

/-- **Exactly the pages of the range become free.** -/
theorem free_afterFree (h : PmmInv memmap s live) {r : Range} (hr : r ∈ live) (p : Nat) :
    (s.afterFree r).Free p ↔ s.Free p ∨ r.Has p :=
  Bitmap.free_of_clear (R := r.Has) (fun q _ => bit_withRun s.mem q)
    fun hin => (h.marked r hr p hin).2.1.1

theorem taken_afterFree (s : PmmState) (r : Range) (p : Nat) :
    (s.afterFree r).Taken p ↔ s.Taken p ∧ ¬ r.Has p :=
  Bitmap.taken_of_clear (R := r.Has) (fun q _ => bit_withRun s.mem q) p

/-- **Freeing a live range keeps the invariant.** -/
theorem pmmInv_afterFree {l₁ l₂ : List Range} {r : Range}
    (h : PmmInv memmap s (l₁ ++ r :: l₂)) : PmmInv memmap (s.afterFree r) (l₁ ++ l₂) := by
  have hr : r ∈ l₁ ++ r :: l₂ := List.mem_append_right l₁ List.mem_cons_self
  have hsub : (l₁ ++ l₂).Sublist (l₁ ++ r :: l₂) :=
    List.Sublist.append (List.Sublist.refl l₁) (List.sublist_cons_self r l₂)
  have hap := h.apart
  rw [List.pairwise_append, List.pairwise_cons] at hap
  refine ⟨h.top, h.direct, h.valid, h.storage, fun p hp hf => ?_, fun p hp ht => ?_,
    fun a ha p hp => ?_, h.apart.sublist hsub⟩
  · rcases (free_afterFree h hr p).mp hf with hf | hin
    · exact h.free p hp hf
    · exact (h.marked r hr p hin).2.2
  · exact h.beyond p hp ((taken_afterFree s r p).mp ht).1
  · obtain ⟨hlt, ht, huse⟩ := h.marked a (hsub.subset ha) p hp
    refine ⟨hlt, (taken_afterFree s r p).mpr ⟨ht, fun hin => ?_⟩, huse⟩
    rcases List.mem_append.mp ha with ha | ha
    · exact hap.2.2 a ha r List.mem_cons_self p ⟨hp, hin⟩
    · exact hap.2.1.1 a ha p ⟨hin, hp⟩

end Step

/-! ## 7. What a call is for -/

/-- **What an allocation is for**: a result is the address of free, usable pages below the
    highest, clear of the live ranges and the bitmap, and exactly these become allocated;
    without a run of free pages the call fails and leaves the bitmap as it was. -/
def AllocSpec (memmap : List MemmapEntry) (s : PmmState) (live : List Range) (n : Usize) : Prop :=
  wp (pmmTryAlloc n) s fun pa t =>
    t.pmm = s.pmm ∧
    (pa ≠ 0 → pa.toNat % 4096 = 0 ∧
      (∀ p, Range.Has ⟨pa, n⟩ p → p < s.pages ∧ s.Free p ∧ UsablePage memmap p ∧
        ¬ s.BitmapPage p ∧ ∀ r ∈ live, ¬ r.Has p) ∧
      ∀ p, t.Free p ↔ s.Free p ∧ ¬ Range.Has ⟨pa, n⟩ p) ∧
    (¬ s.FreeRun n.toNat → pa = 0 ∧ ∀ p, t.Free p ↔ s.Free p)

/-- **What a free is for**: it returns, and exactly the pages of the range become free. -/
def FreeSpec (s : PmmState) (r : Range) : Prop :=
  wp (pmmFree r.pa r.count) s fun _ t => t.pmm = s.pmm ∧ ∀ p, t.Free p ↔ s.Free p ∨ r.Has p

/-- The scan for `n` pages ends inside the memory: some run is free, or the last page is taken. -/
def AllocFits (s : PmmState) (n : Nat) : Prop :=
  s.FreeRun n ∨ s.pages = 0 ∨ s.Taken (s.pages - 1)

section Spec

variable {memmap : List MemmapEntry} {s : PmmState} {live : List Range}

/-- The first of the free runs. -/
theorem exists_first_run {n : Nat} (h : s.FreeRun n) (hn : 1 ≤ n) :
    ∃ base, base + n ≤ s.pages ∧ (∀ c, c < base → s.Blocked c n) ∧ s.RunFree base n := by
  classical
  obtain ⟨b, hb, hr⟩ := h
  have hex : ∃ base, s.RunFree base n := ⟨b, hr⟩
  have hle := Nat.find_min' hex hr
  refine ⟨Nat.find hex, by omega, fun c hc => ?_, Nat.find_spec hex⟩
  -- every page before the end of the run at `b` has a bit
  have hlast := (runFree_covered (p := b + (n - 1)) hr (by omega)).1
  have hcov : ∀ i, i < n → (c + i) / 8 < s.pmm.allocatedPages.buffer.size.toNat := by
    intro i hi
    omega
  exact (Bitmap.runFree_or_blocked hcov).resolve_left (Nat.find_min hex hc)

/-- A run that reaches a taken page is stopped. -/
theorem blocked_of_last {base n : Nat} (hb : base < s.pages) (hn : s.pages < base + n)
    (ht : s.Taken (s.pages - 1)) : s.Blocked base n := by
  refine Bitmap.blocked_of_taken (i := s.pages - 1 - base) (by omega) ?_
  rw [Nat.add_sub_cancel' (by omega)]
  exact ht

/-- **Where the scan ends inside the memory, a run it finds lies below the highest page.** -/
theorem run_below {base n : Nat} (hf : AllocFits s n) (hb : base < s.pages)
    (hbl : ∀ c, c < base → s.Blocked c n) (hr : s.RunFree base n) : base + n ≤ s.pages := by
  rcases hf with ⟨b, hbn, hr'⟩ | h0 | ht
  · rcases Nat.lt_or_ge b base with hlt | hge
    · exact absurd hr' (Bitmap.not_runFree_of_blocked (hbl b hlt))
    · omega
  · omega
  · refine Nat.le_of_not_lt fun hlt => ?_
    exact Bitmap.not_runFree_of_blocked (blocked_of_last hb hlt ht) hr

/-- Without a free run, a taken last page stops every base. -/
theorem all_blocked {n : Nat} (hno : ¬ s.FreeRun n) (ht : s.Taken (s.pages - 1)) {c : Nat}
    (hc : c < s.pages) : s.Blocked c n := by
  rcases Nat.lt_or_ge s.pages (c + n) with hlt | hge
  · exact blocked_of_last hc hlt ht
  · have hcov : ∀ i, i < n → (c + i) / 8 < s.pmm.allocatedPages.buffer.size.toNat := by
      intro i hi
      have h1 := ht.1
      omega
    exact (Bitmap.runFree_or_blocked hcov).resolve_left fun hr => hno ⟨c, hge, hr⟩

theorem range_has_iff (h : PmmInv memmap s live) {base : Nat} (hb : base < s.pages) (n : Usize)
    (p : Nat) : Range.Has ⟨BitVec.ofNat 64 base * MM_PHYS_PAGE_SIZE, n⟩ p ↔
      base ≤ p ∧ p < base + n.toNat := by
  have hpage : (BitVec.ofNat 64 base * MM_PHYS_PAGE_SIZE).toNat / 4096 = base := by
    rw [(pageAddr_facts h hb).1]
    omega
  unfold Range.Has
  rw [hpage]

/-- Where the scan ends inside the memory, the allocator does what it is for. -/
theorem allocSpec_of_fits (h : PmmInv memmap s live) {n : Usize} (hn : 1 ≤ n.toNat)
    (hf : AllocFits s n.toNat) : AllocSpec memmap s live n := by
  unfold AllocSpec
  rw [wp_pmmTryAlloc h.valid hn]
  by_cases hrun : s.FreeRun n.toNat
  · obtain ⟨base, hb, hbl, hr⟩ := exists_first_run hrun hn
    have hlt : base < s.pages := by omega
    obtain ⟨hpa, hva⟩ := pageAddr_facts h hlt
    have hpos := h.direct.pos
    refine Or.inl ⟨base, hlt, hbl, hr, fun h0 => ?_, rfl, fun _ => ⟨?_, fun p hp => ?_,
      fun p => ?_⟩, fun hno => absurd hrun hno⟩
    · rw [h0, show (0 : U64).toNat = 0 from rfl] at hva
      omega
    · rw [hpa]
      exact Nat.mul_mod_right _ _
    · have hin := (range_has_iff h hlt n p).mp hp
      have hfree := (runFree_covered hr hin).2
      have hp' : p < s.pages := by omega
      have huse := h.free p hp' hfree
      exact ⟨hp', hfree, huse.1, huse.2, run_apart h hr hin⟩
    · rw [free_afterAlloc h hb hn hr, range_has_iff h hlt]
  · refine Or.inr ⟨fun c hc => ?_, rfl, fun h0 => absurd rfl h0, fun _ => ⟨rfl, fun _ => Iff.rfl⟩⟩
    rcases hf with hf | h0 | ht
    · exact absurd hf hrun
    · omega
    · exact all_blocked hrun ht hc

/-- Where the scan leaves the memory, the allocator does not do what it is for. -/
theorem fits_of_allocSpec (h : PmmInv memmap s live) {n : Usize} (hn : 1 ≤ n.toNat)
    (hs : AllocSpec memmap s live n) : AllocFits s n.toNat := by
  unfold AllocSpec at hs
  rw [wp_pmmTryAlloc h.valid hn] at hs
  refine Classical.byContradiction fun hf => ?_
  have hno : ¬ s.FreeRun n.toNat := fun hr => hf (Or.inl hr)
  have h0 : s.pages ≠ 0 := fun h0 => hf (Or.inr (Or.inl h0))
  have hnt : ¬ s.Taken (s.pages - 1) := fun ht => hf (Or.inr (Or.inr ht))
  rcases hs with ⟨base, hlt, _, hr, _, _, _, hnull⟩ | ⟨hbl, _⟩
  · -- the result is not null: the bitmap itself lies between page 0 and the highest
    have hpa := (pageAddr_facts h hlt).1
    rw [(hnull hno).1, show (0 : U64).toNat = 0 from rfl] at hpa
    have hbase : base = 0 := by omega
    subst hbase
    have hlong : s.pages < 0 + n.toNat := Nat.lt_of_not_le fun hle => hno ⟨0, hle, hr⟩
    obtain ⟨b, hdata, hba, hsz, hbt⟩ := h.storage
    have hpos : 0 < s.pmm.allocatedPages.buffer.size.toNat := h.valid.2
    have htop := h.top
    have hpage : b.toNat / 4096 < s.pages := by
      unfold PmmState.pages
      omega
    refine (h.free _ hpage (runFree_covered hr (by omega)).2).2 ?_
    unfold PmmState.BitmapPage
    rw [hdata, hhdmV2p_hhdmP2v]
    omega
  · obtain ⟨i, _, _, _, ht⟩ := hbl (s.pages - 1) (by omega)
    cases i with
    | zero => exact hnt ht
    | succ i => exact h.beyond _ (by omega) ht

/-- Freeing a live range does what it is for. -/
theorem freeSpec (h : PmmInv memmap s live) {r : Range} (hr : r ∈ live) : FreeSpec s r := by
  have hpage : (r.pa / MM_PHYS_PAGE_SIZE).toNat = r.pa.toNat / 4096 := by
    rw [BitVec.toNat_udiv, toNat_MM_PHYS_PAGE_SIZE]
  unfold FreeSpec pmmFree
  rw [hpage, wp_pmmClearPages]
  refine ⟨fun i hi => ⟨h.valid, ?_⟩, rfl, free_afterFree h hr⟩
  exact (h.marked r hr _ ⟨Nat.le_add_right _ _, Nat.add_lt_add_left hi _⟩).2.1.1

end Spec

/-! ## 8. Runs -/

/-- The states a run reaches from `s₀`, with the ranges that are live there: a load, and then
    any allocations of one page or more that meet `P`, and frees of live ranges. -/
inductive PmmRun (P : PmmState → Nat → Prop) (s₀ : PmmState) : PmmState → List Range → Prop where
  | load {s : PmmState} (h : pmmLoad s₀ = .ok ((), s)) : PmmRun P s₀ s []
  | alloc {s t : PmmState} {live : List Range} {n : Usize} {pa : Uptr}
      (hr : PmmRun P s₀ s live) (hn : 1 ≤ n.toNat) (hP : P s n.toNat)
      (h : pmmTryAlloc n s = .ok (pa, t)) :
      PmmRun P s₀ t (if pa = 0 then live else ⟨pa, n⟩ :: live)
  | free {s t : PmmState} {l₁ l₂ : List Range} {r : Range}
      (hr : PmmRun P s₀ s (l₁ ++ r :: l₂)) (h : pmmFree r.pa r.count s = .ok ((), t)) :
      PmmRun P s₀ t (l₁ ++ l₂)

/-- One allocation whose scan ends inside the memory. -/
theorem pmmInv_alloc {memmap : List MemmapEntry} {s t : PmmState} {live : List Range} {n : Usize}
    {pa : Uptr} (h : PmmInv memmap s live) (hn : 1 ≤ n.toNat) (hf : AllocFits s n.toNat)
    (hrun : pmmTryAlloc n s = .ok (pa, t)) :
    PmmInv memmap t (if pa = 0 then live else ⟨pa, n⟩ :: live) := by
  have hw : wp (pmmTryAlloc n) s fun a t' => a = pa ∧ t' = t := ⟨pa, t, hrun, rfl, rfl⟩
  rw [wp_pmmTryAlloc h.valid hn] at hw
  rcases hw with ⟨base, hlt, hbl, hr, _, rfl, rfl⟩ | ⟨_, rfl, rfl⟩
  · have hinv := pmmInv_afterAlloc h (run_below hf hlt hbl hr) hn hr
    split
    · exact pmmInv_sublist hinv (List.sublist_cons_self _ _)
    · exact hinv
  · rw [if_pos rfl]
    exact h

/-- **Every state of a run whose scans end inside the memory satisfies the invariant.** -/
theorem pmmInv_run {s₀ s : PmmState} {live : List Range} (hb : BootOk s₀)
    (hr : PmmRun AllocFits s₀ s live) : PmmInv s₀.memmap s live := by
  induction hr with
  | load h => exact pmmInv_load hb h
  | alloc _ hn hP h ih => exact pmmInv_alloc ih hn hP h
  | @free s t l₁ l₂ r _ h ih =>
      have hpage : (r.pa / MM_PHYS_PAGE_SIZE).toNat = r.pa.toNat / 4096 := by
        rw [BitVec.toNat_udiv, toNat_MM_PHYS_PAGE_SIZE]
      have hw : wp (pmmFree r.pa r.count) s fun _ t' => t' = t := ⟨(), t, h, rfl⟩
      unfold pmmFree at hw
      rw [hpage, wp_pmmClearPages] at hw
      obtain ⟨_, rfl⟩ := hw
      exact pmmInv_afterFree ih

/-- **Along such a run the allocator is first fit**: an allocation does what it is for exactly
    when its scan ends inside the memory, and every free does what it is for. -/
theorem pmm_runs {s₀ s : PmmState} {live : List Range} (hb : BootOk s₀)
    (hr : PmmRun AllocFits s₀ s live) :
    (∀ n : Usize, 1 ≤ n.toNat → (AllocSpec s₀.memmap s live n ↔ AllocFits s n.toNat)) ∧
      ∀ r ∈ live, FreeSpec s r := by
  have h := pmmInv_run hb hr
  exact ⟨fun n hn => ⟨fits_of_allocSpec h hn, allocSpec_of_fits h hn⟩, fun r hr => freeSpec h hr⟩

/-- The state after loading on eight pages, the second of which becomes the bitmap. -/
def loaded32KB : PmmState :=
  loadedState (bootWith 0x8000) 0x8000 0x1000 0x1000
    [⟨0, 0x1000, .other⟩, ⟨0x2000, 0x6000, .usable⟩]

theorem bootOk_32KB : BootOk (bootWith 0x8000) :=
  ⟨⟨by decide, by decide, by decide⟩, ⟨by decide, by decide⟩, rfl, by decide⟩

theorem pmmLoad_32KB : pmmLoad (bootWith 0x8000) = .ok ((), loaded32KB) := by
  have htop : (bootWith 0x8000).memmap.foldl highestPageStep
      (bootWith 0x8000).pmm.highestPage = 0x8000 := by decide
  have hsize : pmmBitmapSize ((bootWith 0x8000).pmm.withTop 0x8000) = 0x1000 := by decide
  have hc : carveBitmap 0x1000 (bootWith 0x8000).memmap =
      some (0x1000, [⟨0, 0x1000, .other⟩, ⟨0x2000, 0x6000, .usable⟩]) := by decide
  obtain ⟨_, t, hrun, rfl⟩ := (wp_pmmLoad_of htop hsize hc fun _ t => t = loaded32KB).mpr
    ⟨by decide, fun p hp _ => ⟨by decide, Nat.lt_of_le_of_lt (Nat.div_le_self p 8)
      (Nat.lt_trans hp (by decide))⟩, rfl⟩
  exact hrun

/-- Free are the pages 2 to 7, and every bit beyond. -/
theorem free_loaded32KB {p : Nat} (hp : p < 32768) : loaded32KB.Free p ↔ 2 ≤ p := by
  have hcov : p / 8 < (0x1000 : Usize).toNat := by
    have : (0x1000 : Usize).toNat = 4096 := rfl
    omega
  have hclear := @clear_loadedState (bootWith 0x8000) 0x8000 0x1000 0x1000
    [⟨0, 0x1000, .other⟩, ⟨0x2000, 0x6000, .usable⟩] p hcov
  have hlow : ∀ q : Fin 8, Missing [⟨0, 0x1000, .other⟩, ⟨0x2000, 0x6000, .usable⟩] q.val ↔
      q.val < 2 := by decide
  have hpages : (0x8000 : Uptr).toNat / 4096 = 8 := rfl
  rw [hpages] at hclear
  constructor
  · intro hf
    refine Nat.le_of_not_lt fun hlt => hclear.mp hf.2 ⟨by omega, ?_⟩
    exact (hlow ⟨p, by omega⟩).mpr hlt
  · intro h2
    refine ⟨hcov, hclear.mpr fun hm => ?_⟩
    exact absurd ((hlow ⟨p, hm.1⟩).mp hm.2) (Nat.not_lt.mpr h2)

/-- On eight pages the first allocation of one page does what it is for. -/
theorem pmm_runs_32KB : AllocSpec (bootWith 0x8000).memmap loaded32KB [] 1 := by
  refine ((pmm_runs bootOk_32KB (.load pmmLoad_32KB)).1 1 (by decide)).mpr (Or.inl ⟨2, ?_, ?_⟩)
  · decide
  · intro i _ hi
    have hone : (1 : Usize).toNat = 1 := rfl
    exact (free_loaded32KB (by omega)).mpr (Nat.le_add_right 2 i)

/-- Seven pages, where six are free: the allocation after loading does not fail. -/
theorem alloc_past_top : PmmRun (fun _ _ => True) (bootWith 0x8000) loaded32KB [] ∧
    ¬ AllocSpec (bootWith 0x8000).memmap loaded32KB [] 7 := by
  refine ⟨.load pmmLoad_32KB, fun h => ?_⟩
  have hinv := pmmInv_load bootOk_32KB pmmLoad_32KB
  rcases fits_of_allocSpec hinv (by decide) h with ⟨base, hb, hr⟩ | h0 | ht
  · have hb' : base + 7 ≤ 8 := hb
    have hf := hr 0 (Nat.zero_le 0) (by decide)
    have h2 := (free_loaded32KB (by omega)).mp hf
    omega
  · exact absurd h0 (by decide)
  · exact Bitmap.not_free_of_taken ht ((free_loaded32KB (by decide)).mpr (by decide))

end Slightx
