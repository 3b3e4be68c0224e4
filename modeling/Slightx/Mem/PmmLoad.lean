/-
  File:      Slightx/Mem/PmmLoad.lean
  Subject:   What `pmm_load` leaves behind.

  `pmm_load` walks the memory map three times: for the highest address, for an entry to carve
  the bitmap out of, and once for each page to mark what is not available. The three walks are
  described against the map the bootloader gave (`topAddress`, `UsablePage`):

  * `highestPage_eq` -- the first walk computes `topAddress`;
  * `carveBitmap_some` -- the second shortens one usable entry by the bitmap's storage;
  * `isPageAvailable_iff` -- the third answers, on a map without overlaps, whether some usable
    entry holds the page;
  * `usablePage_carved` -- so on the carved map it answers for the given map less the storage.

  The bitmap is rounded twice: the page count down to whole bytes, then the bytes up to whole
  pages. The first rounding loses a byte whenever the page count is no multiple of eight, and the
  second gives it back unless the bytes already filled their last page (`covered_iff`). Hence
  the condition of `pmmLoad_spec_iff`.
-/
import Slightx.Mem.Pmm
import Mathlib.Data.List.Pairwise

namespace Slightx

open Lib

/-! ## 1. The memory map -/

/-- The types `pmm__find_highest_page` counts. -/
def MemmapType.Counted : MemmapType → Prop
  | .usable | .bootloaderReclaimable | .executableAndModules => True
  | .other => False

instance : DecidablePred MemmapType.Counted := fun t => by
  cases t <;> unfold MemmapType.Counted <;> infer_instance

/-- The first address above the entry. -/
def MemmapEntry.stop (e : MemmapEntry) : Nat := e.base.toNat + e.length.toNat

/-- Page `p` lies wholly inside the entry. -/
def MemmapEntry.Holds (e : MemmapEntry) (p : Nat) : Prop :=
  e.base.toNat ≤ 4096 * p ∧ 4096 * p + 4096 ≤ e.stop

/-- The entries share no address. -/
def MemmapEntry.Apart (a b : MemmapEntry) : Prop := a.stop ≤ b.base.toNat ∨ b.stop ≤ a.base.toNat

/-- The first address above every counted entry. -/
def topAddress (memmap : List MemmapEntry) : Nat :=
  memmap.foldl (fun top e => if e.type.Counted then max top e.stop else top) 0

/-- The number of whole pages below the highest address. -/
def pagesOf (memmap : List MemmapEntry) : Nat := topAddress memmap / 4096

instance (e : MemmapEntry) (p : Nat) : Decidable (e.Holds p) :=
  inferInstanceAs (Decidable (_ ∧ _))

instance (a b : MemmapEntry) : Decidable (a.Apart b) :=
  inferInstanceAs (Decidable (_ ∨ _))

/-- Page `p` lies wholly inside a usable entry. -/
def UsablePage (memmap : List MemmapEntry) (p : Nat) : Prop :=
  ∃ e ∈ memmap, e.type = .usable ∧ e.Holds p

instance (memmap : List MemmapEntry) (p : Nat) : Decidable (UsablePage memmap p) :=
  inferInstanceAs (Decidable (∃ e ∈ memmap, _))

/-- A memory map as the bootloader promises it: usable entries are page-aligned and overlap no
    other entry, and the entries that count end at an address. -/
structure MemmapOk (memmap : List MemmapEntry) : Prop where
  aligned : ∀ e ∈ memmap, e.type = .usable →
    e.base.toNat % 4096 = 0 ∧ e.length.toNat % 4096 = 0
  apart : memmap.Pairwise fun a b => (a.type = .usable ∨ b.type = .usable) → a.Apart b
  ends : ∀ e ∈ memmap, e.type.Counted → e.stop < 2 ^ 64

/-- The direct map starts above the null pointer and has room for every address below the
    highest. -/
structure DirectMapOk (memmap : List MemmapEntry) (hhdm : U64) : Prop where
  pos : 0 < hhdm.toNat
  room : hhdm.toNat + topAddress memmap ≤ 2 ^ 64

theorem apart_symm {a b : MemmapEntry} (h : a.Apart b) : b.Apart a := Or.symm h

/-- An entry that holds a page is apart from no entry that holds it. -/
theorem not_apart_of_holds {a b : MemmapEntry} {p : Nat} (ha : a.Holds p) (hb : b.Holds p) :
    ¬ a.Apart b := by
  intro h
  unfold MemmapEntry.Holds at ha hb
  unfold MemmapEntry.Apart at h
  omega

/-- Of two entries of a good map that hold one page, one usable, both are the same. -/
theorem holds_unique {memmap : List MemmapEntry}
    (hap : memmap.Pairwise fun a b => (a.type = .usable ∨ b.type = .usable) → a.Apart b)
    {a b : MemmapEntry} (ha : a ∈ memmap) (hb : b ∈ memmap) (hu : a.type = .usable) {p : Nat}
    (hpa : a.Holds p) (hpb : b.Holds p) : a = b := by
  refine Classical.byContradiction fun hne => ?_
  have hsym : Std.Symm fun a b : MemmapEntry =>
      (a.type = .usable ∨ b.type = .usable) → a.Apart b :=
    ⟨fun _ _ h h' => apart_symm (h h'.symm)⟩
  exact not_apart_of_holds hpa hpb (hap.forall ha hb hne (Or.inl hu))

/-! ## 2. The highest address -/

theorem le_foldl_top (memmap : List MemmapEntry) (n : Nat) :
    n ≤ memmap.foldl (fun top e => if e.type.Counted then max top e.stop else top) n := by
  induction memmap generalizing n with
  | nil => exact Nat.le_refl n
  | cons e rest ih =>
      rw [List.foldl_cons]
      refine Nat.le_trans ?_ (ih _)
      split
      · exact Nat.le_max_left _ _
      · exact Nat.le_refl n

theorem stop_le_foldl_top {memmap : List MemmapEntry} {e : MemmapEntry} (he : e ∈ memmap)
    (hc : e.type.Counted) (n : Nat) :
    e.stop ≤ memmap.foldl (fun top e => if e.type.Counted then max top e.stop else top) n := by
  induction memmap generalizing n with
  | nil => exact absurd he List.not_mem_nil
  | cons a rest ih =>
      rcases List.mem_cons.mp he with rfl | he
      · rw [List.foldl_cons, if_pos hc]
        exact Nat.le_trans (Nat.le_max_right _ _) (le_foldl_top rest _)
      · exact ih he _

theorem stop_le_top {memmap : List MemmapEntry} {e : MemmapEntry} (he : e ∈ memmap)
    (hc : e.type.Counted) : e.stop ≤ topAddress memmap :=
  stop_le_foldl_top he hc 0

/-- One round of the walk, as a maximum. -/
theorem highestPageStep_toNat (h : Uptr) (e : MemmapEntry)
    (hend : e.type.Counted → e.stop < 2 ^ 64) :
    (highestPageStep h e).toNat =
      if e.type.Counted then max h.toNat e.stop else h.toNat := by
  have hsum : e.type.Counted → (e.base + e.length).toNat = e.stop := fun hc => by
    rw [BitVec.toNat_add]
    exact Nat.mod_eq_of_lt (hend hc)
  have hmax : e.type.Counted →
      (if e.base + e.length > h then e.base + e.length else h).toNat = max h.toNat e.stop := by
    intro hc
    have hs := hsum hc
    split
    · rename_i hgt
      have : h.toNat < (e.base + e.length).toNat := hgt
      omega
    · rename_i hle
      have : ¬ h.toNat < (e.base + e.length).toNat := hle
      omega
  unfold highestPageStep
  cases ht : e.type with
  | usable => rw [ht] at hmax; simpa [MemmapType.Counted] using hmax trivial
  | bootloaderReclaimable => rw [ht] at hmax; simpa [MemmapType.Counted] using hmax trivial
  | executableAndModules => rw [ht] at hmax; simpa [MemmapType.Counted] using hmax trivial
  | other => simp [MemmapType.Counted]

/-- **The first walk computes the highest address.** -/
theorem highestPage_eq {memmap : List MemmapEntry}
    (hend : ∀ e ∈ memmap, e.type.Counted → e.stop < 2 ^ 64) :
    (memmap.foldl highestPageStep 0).toNat = topAddress memmap := by
  have key : ∀ (l : List MemmapEntry) (h : Uptr),
      (∀ e ∈ l, e.type.Counted → e.stop < 2 ^ 64) →
      (l.foldl highestPageStep h).toNat =
        l.foldl (fun top e => if e.type.Counted then max top e.stop else top) h.toNat := by
    intro l
    induction l with
    | nil => intro h _; rfl
    | cons e rest ih =>
        intro h hl
        rw [List.foldl_cons, List.foldl_cons, ih _ fun x hx => hl x (List.mem_cons_of_mem _ hx),
          highestPageStep_toNat h e (hl e List.mem_cons_self)]
  exact key memmap 0 hend

theorem toNat_pmmGetPageCount (self : Pmm) :
    (pmmGetPageCount self).toNat = self.highestPage.toNat / 4096 := by
  unfold pmmGetPageCount
  have h := toNat_alignPtrDown self.highestPage MM_PHYS_PAGE_SIZE
  rw [BitVec.toNat_udiv, h, toNat_MM_PHYS_PAGE_SIZE]
  omega

/-- The bytes of the bitmap for `n` pages. -/
def bitmapBytes (n : Nat) : Nat := (n / 8 + 4095) / 4096 * 4096

theorem toNat_pmmBitmapSize (self : Pmm) :
    (pmmBitmapSize self).toNat = bitmapBytes (self.highestPage.toNat / 4096) := by
  have hlt := self.highestPage.isLt
  have hq : (pmmGetPageCount self / 8).toNat = self.highestPage.toNat / 4096 / 8 := by
    rw [BitVec.toNat_udiv, toNat_pmmGetPageCount]
    rfl
  have hp := toNat_MM_PHYS_PAGE_SIZE
  unfold pmmBitmapSize bitmapBytes
  rw [toNat_alignSizeUp (by rw [hp]; decide) (by rw [hp, hq]; omega), hq, hp]

/-- The page counts the reserved bitmap has a bit for, from the first byte on. -/
theorem covered_iff (n : Nat) :
    (0 < bitmapBytes n ∧ n ≤ 8 * bitmapBytes n) ↔ 8 ≤ n ∧ (n % 32768 = 0 ∨ 8 ≤ n % 32768) := by
  unfold bitmapBytes
  omega

/-! ## 3. Carving the bitmap out of the map -/

/-- The entry less the first `size` bytes. -/
def MemmapEntry.shorten (e : MemmapEntry) (size : Usize) : MemmapEntry :=
  { e with base := e.base + size, length := e.length - size }

/-- **The second walk shortens the first usable entry that is long enough.** -/
theorem carveBitmap_some {size : Usize} {memmap : List MemmapEntry}
    (h : ∃ e ∈ memmap, e.type = .usable ∧ size ≤ e.length) :
    ∃ l e r, memmap = l ++ e :: r ∧ e.type = .usable ∧ size ≤ e.length ∧
      carveBitmap size memmap = some (e.base, l ++ e.shorten size :: r) := by
  induction memmap with
  | nil =>
      obtain ⟨e, he, _⟩ := h
      exact absurd he List.not_mem_nil
  | cons a rest ih =>
      by_cases ha : a.type = .usable ∧ a.length ≥ size
      · refine ⟨[], a, rest, rfl, ha.1, ha.2, ?_⟩
        unfold carveBitmap
        rw [if_pos ha]
        rfl
      · obtain ⟨e, he, hu, hl⟩ := h
        have he' : e ∈ rest := by
          rcases List.mem_cons.mp he with rfl | he
          · exact absurd ⟨hu, hl⟩ ha
          · exact he
        obtain ⟨l, e', r, hm, hu', hl', hc⟩ := ih ⟨e, he', hu, hl⟩
        refine ⟨a :: l, e', r, by rw [hm]; rfl, hu', hl', ?_⟩
        unfold carveBitmap
        rw [if_neg ha, hc]
        rfl

section Shorten

variable {e : MemmapEntry} {size : Usize}

theorem shorten_base (hs : size ≤ e.length) (hend : e.stop < 2 ^ 64) :
    (e.shorten size).base.toNat = e.base.toNat + size.toNat := by
  have hs' : size.toNat ≤ e.length.toNat := hs
  unfold MemmapEntry.stop at hend
  show (e.base + size).toNat = _
  rw [BitVec.toNat_add, Nat.mod_eq_of_lt (by omega)]

theorem shorten_stop (hs : size ≤ e.length) (hend : e.stop < 2 ^ 64) :
    (e.shorten size).stop = e.stop := by
  have hs' : size.toNat ≤ e.length.toNat := hs
  have hl : (e.shorten size).length.toNat = e.length.toNat - size.toNat :=
    BitVec.toNat_sub_of_le hs
  unfold MemmapEntry.stop
  rw [shorten_base hs hend, hl]
  omega

end Shorten

/-- What is apart from an entry is apart from what is left of it. -/
theorem apart_shorten {a e : MemmapEntry} {size : Usize} (hs : size ≤ e.length)
    (hend : e.stop < 2 ^ 64) (h : a.Apart e) : a.Apart (e.shorten size) := by
  unfold MemmapEntry.Apart at *
  rw [shorten_base hs hend, shorten_stop hs hend]
  omega

/-- The carved map of a good map has no overlaps either. -/
theorem pairwise_carved {l r : List MemmapEntry} {e : MemmapEntry} {size : Usize}
    (hap : (l ++ e :: r).Pairwise fun a b => (a.type = .usable ∨ b.type = .usable) → a.Apart b)
    (hs : size ≤ e.length) (hend : e.stop < 2 ^ 64) :
    (l ++ e.shorten size :: r).Pairwise
      fun a b => (a.type = .usable ∨ b.type = .usable) → a.Apart b := by
  rw [List.pairwise_append, List.pairwise_cons] at hap ⊢
  obtain ⟨hl, ⟨her, hr⟩, hlr⟩ := hap
  refine ⟨hl, ⟨fun b hb hu => apart_symm (apart_shorten hs hend (apart_symm (her b hb hu))), hr⟩,
    fun a ha b hb hu => ?_⟩
  rcases List.mem_cons.mp hb with rfl | hb
  · exact apart_shorten hs hend (hlr a ha e List.mem_cons_self hu)
  · exact hlr a ha b (List.mem_cons_of_mem _ hb) hu

/-- The carved map's usable entries still end at an address. -/
theorem stop_lt_carved {l r : List MemmapEntry} {e : MemmapEntry} {size : Usize}
    (hok : MemmapOk (l ++ e :: r)) (hu : e.type = .usable) (hs : size ≤ e.length) :
    ∀ a ∈ l ++ e.shorten size :: r, a.type = .usable → a.stop < 2 ^ 64 := by
  intro a ha hat
  have hcount : a.type.Counted := by rw [hat]; trivial
  rcases List.mem_append.mp ha with ha | ha
  · exact hok.ends a (List.mem_append_left _ ha) hcount
  · rcases List.mem_cons.mp ha with rfl | ha
    · have hend := hok.ends e (List.mem_append_right l List.mem_cons_self) (by rw [hu]; trivial)
      rw [shorten_stop hs hend]
      exact hend
    · exact hok.ends a (List.mem_append_right _ (List.mem_cons_of_mem _ ha)) hcount

/-! ## 4. Availability -/

theorem toNat_hhdmP2v {hhdm : U64} {pa : Uptr} (h : pa.toNat + hhdm.toNat < 2 ^ 64) :
    (hhdmP2v hhdm pa).toNat = pa.toNat + hhdm.toNat := by
  unfold hhdmP2v
  rw [BitVec.toNat_add, Nat.mod_eq_of_lt h]

theorem toNat_pageAddr {p : Nat} (hp : 4096 * p < 2 ^ 64) :
    (BitVec.ofNat 64 p * MM_PHYS_PAGE_SIZE).toNat = 4096 * p := by
  rw [BitVec.toNat_mul, ofNat_toNat_lt (by omega), toNat_MM_PHYS_PAGE_SIZE, Nat.mul_comm,
    Nat.mod_eq_of_lt hp]

theorem toNat_add_page {x : Uptr} (hx : x.toNat + 4096 < 2 ^ 64) :
    (x + MM_PHYS_PAGE_SIZE).toNat = x.toNat + 4096 := by
  rw [BitVec.toNat_add, toNat_MM_PHYS_PAGE_SIZE, Nat.mod_eq_of_lt hx]

/-- The test of the third walk, for pages below the top of the address space. -/
theorem coversPage_iff (e : MemmapEntry) {p : Nat} (hp : 4096 * p + 4096 < 2 ^ 64) :
    e.coversPage (BitVec.ofNat 64 p * MM_PHYS_PAGE_SIZE) = true ↔
      e.base.toNat ≤ 4096 * p ∧ 4096 * p + 4096 ≤ (e.base + e.length).toNat := by
  have hpa := toNat_pageAddr (p := p) (by omega)
  have hpe := toNat_add_page (x := BitVec.ofNat 64 p * MM_PHYS_PAGE_SIZE) (by rw [hpa]; exact hp)
  unfold MemmapEntry.coversPage
  rw [Bool.and_eq_true, decide_eq_true_iff, decide_eq_true_iff, ge_iff_le, BitVec.le_def,
    BitVec.le_def, hpe, hpa]

/-- **The third walk answers whether some usable entry holds the page**, on a map without
    overlaps whose usable entries end at an address. -/
theorem isPageAvailable_iff {memmap : List MemmapEntry}
    (hap : memmap.Pairwise fun a b => (a.type = .usable ∨ b.type = .usable) → a.Apart b)
    (hend : ∀ e ∈ memmap, e.type = .usable → e.stop < 2 ^ 64) {p : Nat}
    (hp : 4096 * p + 4096 < 2 ^ 64) :
    pmmIsPageAvailable memmap (BitVec.ofNat 64 p * MM_PHYS_PAGE_SIZE) = true ↔
      UsablePage memmap p := by
  have hholds : ∀ e : MemmapEntry,
      e.coversPage (BitVec.ofNat 64 p * MM_PHYS_PAGE_SIZE) = true → e.Holds p := by
    intro e he
    obtain ⟨h1, h2⟩ := (coversPage_iff e hp).mp he
    refine ⟨h1, Nat.le_trans h2 ?_⟩
    rw [BitVec.toNat_add]
    exact Nat.mod_le _ _
  have hcovers : ∀ e ∈ memmap, e.type = .usable → e.Holds p →
      e.coversPage (BitVec.ofNat 64 p * MM_PHYS_PAGE_SIZE) = true := by
    intro e he hu hh
    have hsum : (e.base + e.length).toNat = e.stop := by
      rw [BitVec.toNat_add]
      exact Nat.mod_eq_of_lt (hend e he hu)
    exact (coversPage_iff e hp).mpr ⟨hh.1, by rw [hsum]; exact hh.2⟩
  unfold pmmIsPageAvailable
  constructor
  · intro h
    cases hf : memmap.find? (·.coversPage (BitVec.ofNat 64 p * MM_PHYS_PAGE_SIZE)) with
    | none => rw [hf] at h; cases h
    | some e =>
        rw [hf] at h
        have hc := List.find?_some hf
        exact ⟨e, List.mem_of_find?_eq_some hf, of_decide_eq_true h, hholds e hc⟩
  · intro h
    obtain ⟨u, hu, hut, huh⟩ := h
    cases hf : memmap.find? (·.coversPage (BitVec.ofNat 64 p * MM_PHYS_PAGE_SIZE)) with
    | none => exact absurd (hcovers u hu hut huh) (List.find?_eq_none.mp hf u hu)
    | some e =>
        have hc := List.find?_some hf
        have he : u = e := holds_unique hap hu (List.mem_of_find?_eq_some hf) hut huh
          (hholds e hc)
        subst he
        exact decide_eq_true hut

/-- **The carved map holds the usable pages less the storage.** -/
theorem usablePage_carved {l r : List MemmapEntry} {e : MemmapEntry} {size : Usize} {p : Nat}
    (hok : MemmapOk (l ++ e :: r)) (hu : e.type = .usable) (hs : size ≤ e.length)
    (hsz : size.toNat % 4096 = 0) :
    UsablePage (l ++ e.shorten size :: r) p ↔
      UsablePage (l ++ e :: r) p ∧
        ¬ (e.base.toNat ≤ 4096 * p ∧ 4096 * p < e.base.toNat + size.toNat) := by
  have hmem : e ∈ l ++ e :: r := List.mem_append_right l List.mem_cons_self
  have hcount : e.type.Counted := by rw [hu]; trivial
  have hend := hok.ends e hmem hcount
  have hal := (hok.aligned e hmem hu).1
  have hs' : size.toNat ≤ e.length.toNat := hs
  have hbase := shorten_base hs hend
  have hstop := shorten_stop hs hend
  -- an entry beside `e` keeps clear of the storage
  have hclear : ∀ a : MemmapEntry, a ∈ l ∨ a ∈ r → a.Holds p →
      ¬ (e.base.toNat ≤ 4096 * p ∧ 4096 * p < e.base.toNat + size.toNat) := by
    intro a ha hah hst
    have hap : a.Apart e := by
      have hpw := hok.apart
      rw [List.pairwise_append, List.pairwise_cons] at hpw
      rcases ha with ha | ha
      · exact hpw.2.2 a ha e List.mem_cons_self (Or.inr hu)
      · exact apart_symm (hpw.2.1.1 a ha (Or.inl hu))
    unfold MemmapEntry.Apart MemmapEntry.stop at hap
    unfold MemmapEntry.Holds MemmapEntry.stop at hah
    omega
  constructor
  · intro h
    obtain ⟨a, ha, hat, hah⟩ := h
    rcases List.mem_append.mp ha with ha | ha
    · exact ⟨⟨a, List.mem_append_left _ ha, hat, hah⟩, hclear a (Or.inl ha) hah⟩
    · rcases List.mem_cons.mp ha with rfl | ha
      · unfold MemmapEntry.Holds at hah
        rw [hbase, hstop] at hah
        refine ⟨⟨e, hmem, hu, ?_⟩, by omega⟩
        unfold MemmapEntry.Holds
        omega
      · exact ⟨⟨a, List.mem_append_right _ (List.mem_cons_of_mem _ ha), hat, hah⟩,
          hclear a (Or.inr ha) hah⟩
  · intro h
    obtain ⟨⟨a, ha, hat, hah⟩, hst⟩ := h
    rcases List.mem_append.mp ha with ha | ha
    · exact ⟨a, List.mem_append_left _ ha, hat, hah⟩
    · rcases List.mem_cons.mp ha with rfl | ha
      · refine ⟨a.shorten size, List.mem_append_right l List.mem_cons_self, hu, ?_⟩
        unfold MemmapEntry.Holds at hah ⊢
        rw [hbase, hstop]
        omega
      · exact ⟨a, List.mem_append_right _ (List.mem_cons_of_mem _ ha), hat, hah⟩

/-! ## 5. The three walks together -/

/-- Page `p` shares an address with the storage of the bitmap. -/
def PmmState.BitmapPage (s : PmmState) (p : Nat) : Prop :=
  (hhdmV2p s.hhdm s.pmm.allocatedPages.buffer.data).toNat < 4096 * p + 4096 ∧
    4096 * p < (hhdmV2p s.hhdm s.pmm.allocatedPages.buffer.data).toNat +
      s.pmm.allocatedPages.buffer.size.toNat

/-- Page `p` is marked free. -/
def PmmState.Clear (s : PmmState) (p : Nat) : Prop :=
  s.pmm.allocatedPages.bit s.mem p = false

/-- **What loading is for**: it finishes, the bitmap has a bit for every page below the highest
    address, and free are exactly the usable pages outside the bitmap. -/
def LoadSpec (s : PmmState) : Prop :=
  wp pmmLoad s fun _ t =>
    pagesOf s.memmap ≤ 8 * t.pmm.allocatedPages.buffer.size.toNat ∧
      ∀ p, p < pagesOf s.memmap → (t.Clear p ↔ UsablePage s.memmap p ∧ ¬ t.BitmapPage p)

/-- The page at `page` is not available. -/
def Missing (memmap : List MemmapEntry) (page : Nat) : Prop :=
  ¬ pmmIsPageAvailable memmap (BitVec.ofNat 64 page * MM_PHYS_PAGE_SIZE) = true

instance (memmap : List MemmapEntry) : DecidablePred (Missing memmap) := fun _ =>
  inferInstanceAs (Decidable (¬ _))

/-- The third walk marks the pages that are not available, if each has a bit. -/
theorem wp_pmmScanBitmap (s : PmmState) (Q : Unit → PmmState → Prop) :
    wp pmmScanBitmap s Q ↔
      (∀ p, p < s.pmm.highestPage.toNat / 4096 → Missing s.memmap p →
        s.pmm.allocatedPages.Valid ∧ p / 8 < s.pmm.allocatedPages.buffer.size.toNat) ∧
      Q () { s with mem := runUp (s.pmm.highestPage.toNat / 4096) (fun p m =>
        if Missing s.memmap p then s.pmm.allocatedPages.withBit m p true else m) s.mem } := by
  unfold pmmScanBitmap
  rw [wp_bind, wp_get, wp_onMem, toNat_pmmGetPageCount]
  refine wp_forUp_iff (fun p m R _ => ?_) s.mem _
  by_cases hp : Missing s.memmap p
  · rw [if_neg hp, wp_bitmapSet, if_pos hp]
    exact ⟨fun h => ⟨fun _ => ⟨h.1, h.2.1⟩, h.2.2⟩, fun h => ⟨(h.1 hp).1, (h.1 hp).2, h.2⟩⟩
  · rw [if_pos (Classical.not_not.mp hp), wp_pure, if_neg hp]
    exact ⟨fun h => ⟨fun hm => absurd hm hp, h⟩, fun h => h.2⟩

/-- The second walk, where it finds an entry: it stops on an empty storage, and otherwise the
    bitmap is the zeroed storage. -/
theorem wp_pmmReserveBitmap {s : PmmState} {base : Uptr} {memmap : List MemmapEntry}
    (h : carveBitmap (pmmBitmapSize s.pmm) s.memmap = some (base, memmap))
    (Q : Unit → PmmState → Prop) :
    wp pmmReserveBitmap s Q ↔
      (hhdmP2v s.hhdm base ≠ 0 ∧ 0 < pmmBitmapSize s.pmm) ∧
      Q () { s with
        memmap
        mem := fill s.mem (hhdmP2v s.hhdm base).toNat (pmmBitmapSize s.pmm).toNat 0
        pmm.allocatedPages := ⟨⟨hhdmP2v s.hhdm base, pmmBitmapSize s.pmm⟩⟩ } := by
  unfold pmmReserveBitmap
  simp only [wp_bind, wp_get, h, wp_set, wp_onMem, makeSpan, wp_assert, wp_pure, wp_modify]
  refine and_congr_right fun hv => ?_
  have hv' : (⟨⟨hhdmP2v s.hhdm base, pmmBitmapSize s.pmm⟩⟩ : Bitmap).Valid := hv
  rw [wp_bitmapInit hv']

/-- What loading may rely on: the map and the direct map are the bootloader's, the instance is
    untouched, and some usable entry has room for the bitmap. -/
structure BootOk (s : PmmState) : Prop where
  map : MemmapOk s.memmap
  direct : DirectMapOk s.memmap s.hhdm
  fresh : s.pmm = pmmInit
  room : ∃ e ∈ s.memmap, e.type = .usable ∧ bitmapBytes (pagesOf s.memmap) ≤ e.length.toNat

/-- The instance after the first walk found `top`. -/
def Pmm.withTop (self : Pmm) (top : Uptr) : Pmm := { self with highestPage := top }

/-- The state after the three walks: the highest address `top`, the bitmap of `size` bytes at
    `base`, and a bit set for each page the carved map misses. -/
def loadedState (s : PmmState) (top base : Uptr) (size : Usize) (memmap : List MemmapEntry) :
    PmmState :=
  let bitmap : Bitmap := ⟨⟨hhdmP2v s.hhdm base, size⟩⟩
  { hhdm := s.hhdm
    memmap
    mem := runUp (top.toNat / 4096)
      (fun p m => if Missing memmap p then bitmap.withBit m p true else m)
      (fill s.mem (hhdmP2v s.hhdm base).toNat size.toNat 0)
    pmm := { highestPage := top, allocatedPages := bitmap } }

/-- The three walks in a row. -/
theorem wp_pmmLoad_of {s : PmmState} {top base : Uptr} {size : Usize} {memmap : List MemmapEntry}
    (htop : s.memmap.foldl highestPageStep s.pmm.highestPage = top)
    (hsize : pmmBitmapSize (s.pmm.withTop top) = size)
    (hc : carveBitmap size s.memmap = some (base, memmap)) (Q : Unit → PmmState → Prop) :
    wp pmmLoad s Q ↔
      (hhdmP2v s.hhdm base ≠ 0 ∧ 0 < size) ∧
      (∀ p, p < top.toNat / 4096 → Missing memmap p →
        (hhdmP2v s.hhdm base ≠ 0 ∧ 0 < size) ∧ p / 8 < size.toNat) ∧
      Q () (loadedState s top base size memmap) := by
  subst htop hsize
  have hres := wp_pmmReserveBitmap (s := { s with pmm := s.pmm.withTop _ }) hc
  unfold pmmLoad pmmFindHighestPage
  rw [wp_bind, wp_modify, wp_bind]
  refine (hres _).trans (and_congr_right fun _ => ?_)
  rw [wp_pmmScanBitmap]
  exact Iff.rfl

/-- Facts about the storage at `base` and the carved map. -/
structure CarveOk (s : PmmState) (top base : Uptr) (size : Usize) (memmap : List MemmapEntry) :
    Prop where
  top_eq : top.toNat = topAddress s.memmap
  size_eq : size.toNat = bitmapBytes (pagesOf s.memmap)
  aligned : base.toNat % 4096 = 0
  below : base.toNat + size.toNat ≤ topAddress s.memmap
  missing : ∀ p, p < pagesOf s.memmap → (Missing memmap p ↔
    ¬ (UsablePage s.memmap p ∧ ¬ (base.toNat ≤ 4096 * p ∧ 4096 * p < base.toNat + size.toNat)))

theorem topAddress_lt {memmap : List MemmapEntry} {hhdm : U64} (h : DirectMapOk memmap hhdm) :
    topAddress memmap < 2 ^ 64 := by
  have h1 := h.pos
  have h2 := h.room
  omega

/-- **When loading returns and where**: the storage is not empty and has a bit for every page
    the third walk marks. -/
theorem wp_pmmLoad {s : PmmState} (hs : BootOk s) :
    ∃ top base size memmap, CarveOk s top base size memmap ∧ ∀ Q : Unit → PmmState → Prop,
      wp pmmLoad s Q ↔
        (0 < size.toNat ∧ ∀ p, p < pagesOf s.memmap → Missing memmap p → p / 8 < size.toNat) ∧
        Q () (loadedState s top base size memmap) := by
  have htop := topAddress_lt hs.direct
  obtain ⟨top, htop_eq⟩ : ∃ top, s.memmap.foldl highestPageStep s.pmm.highestPage = top :=
    ⟨_, rfl⟩
  have htn : top.toNat = topAddress s.memmap := by
    rw [← htop_eq, hs.fresh]
    exact highestPage_eq hs.map.ends
  have hpages : top.toNat / 4096 = pagesOf s.memmap := by rw [htn]; rfl
  obtain ⟨size, hsize_eq⟩ : ∃ size, pmmBitmapSize (s.pmm.withTop top) = size := ⟨_, rfl⟩
  have hsize : size.toNat = bitmapBytes (pagesOf s.memmap) := by
    rw [← hsize_eq, toNat_pmmBitmapSize, ← hpages]
    rfl
  obtain ⟨l, e, r, hm, hu, hl, hc⟩ : ∃ l e r, s.memmap = l ++ e :: r ∧ e.type = .usable ∧
      size ≤ e.length ∧ carveBitmap size s.memmap = some (e.base, l ++ e.shorten size :: r) := by
    obtain ⟨e, he, hu, hl⟩ := hs.room
    exact carveBitmap_some ⟨e, he, hu, by rw [BitVec.le_def, hsize]; exact hl⟩
  have he : e ∈ s.memmap := by rw [hm]; exact List.mem_append_right l List.mem_cons_self
  have hstop := stop_le_top he (by rw [hu]; trivial : e.type.Counted)
  have hlen : size.toNat ≤ e.length.toNat := hl
  have hbelow : e.base.toNat + size.toNat ≤ topAddress s.memmap := by
    unfold MemmapEntry.stop at hstop
    omega
  refine ⟨top, e.base, size, l ++ e.shorten size :: r,
    ⟨htn, hsize, (hs.map.aligned e he hu).1, hbelow, fun p hp => ?_⟩, fun Q => ?_⟩
  · have hok := hs.map
    rw [hm] at hok
    have hcarved := usablePage_carved (p := p) hok hu hl
      (by rw [hsize]; exact Nat.mul_mod_left _ _)
    rw [← hm] at hcarved
    have hpt : 4096 * p + 4096 ≤ topAddress s.memmap := by
      unfold pagesOf at hp
      omega
    have hend : e.stop < 2 ^ 64 := by omega
    unfold Missing
    rw [isPageAvailable_iff (pairwise_carved hok.apart hl hend) (stop_lt_carved hok hu hl)
      (by omega), hcarved]
  · -- the direct map puts no storage at the null pointer
    have hdata : 0 < size.toNat → hhdmP2v s.hhdm e.base ≠ 0 := by
      intro hpos h0
      have h1 := @toNat_hhdmP2v s.hhdm e.base (by have := hs.direct.room; omega)
      rw [h0] at h1
      have h2 := hs.direct.pos
      have h3 : (0 : U64).toNat = 0 := rfl
      omega
    rw [wp_pmmLoad_of htop_eq hsize_eq hc, hpages]
    constructor
    · intro h
      obtain ⟨⟨_, hpos⟩, hmarks, hq⟩ := h
      exact ⟨⟨hpos, fun p hp hmiss => (hmarks p hp hmiss).2⟩, hq⟩
    · intro h
      obtain ⟨⟨hpos, hmarks⟩, hq⟩ := h
      have hv : hhdmP2v s.hhdm e.base ≠ 0 ∧ 0 < size := ⟨hdata hpos, hpos⟩
      exact ⟨hv, fun p hp hmiss => ⟨hv, hmarks p hp hmiss⟩, hq⟩

/-- A bit of a zeroed buffer is clear. -/
theorem bit_fill_zero {self : Bitmap} (m : Mem) {i : Nat} (hi : i / 8 < self.buffer.size.toNat) :
    self.bit (fill m self.buffer.data.toNat self.buffer.size.toNat 0) i = false := by
  unfold Bitmap.bit
  rw [fill_in ⟨Nat.le_add_right _ _, Nat.add_lt_add_left hi _⟩]
  exact BitVec.getLsbD_zero

/-- The bits loading leaves behind: set are the pages the carved map misses. -/
theorem clear_loadedState {s : PmmState} {top base : Uptr} {size : Usize}
    {memmap : List MemmapEntry} {p : Nat} (hp : p / 8 < size.toNat) :
    (loadedState s top base size memmap).Clear p ↔
      ¬ (p < top.toNat / 4096 ∧ Missing memmap p) := by
  have hbits := @Bitmap.bit_runUp_withBit ⟨⟨hhdmP2v s.hhdm base, size⟩⟩ (Missing memmap) _
    (fun i => i) true (top.toNat / 4096)
    (fill s.mem (hhdmP2v s.hhdm base).toNat size.toNat 0) p
  have hzero := @bit_fill_zero ⟨⟨hhdmP2v s.hhdm base, size⟩⟩ s.mem p hp
  unfold PmmState.Clear loadedState
  rw [hbits]
  by_cases h : p < top.toNat / 4096 ∧ Missing memmap p
  · rw [if_pos ⟨p, h.1, h.2, rfl⟩]
    exact ⟨fun hf => absurd hf (by decide), fun hn => absurd h hn⟩
  · rw [if_neg fun hex => h (by obtain ⟨i, hi, hm, rfl⟩ := hex; exact ⟨hi, hm⟩)]
    exact ⟨fun _ => h, fun _ => hzero⟩

/-- Where the storage lies. -/
theorem bitmapPage_loadedState {s : PmmState} {top base : Uptr} {size : Usize}
    {memmap : List MemmapEntry} {p : Nat} (hb : base.toNat % 4096 = 0)
    (hs : size.toNat % 4096 = 0) :
    (loadedState s top base size memmap).BitmapPage p ↔
      base.toNat ≤ 4096 * p ∧ 4096 * p < base.toNat + size.toNat := by
  unfold PmmState.BitmapPage loadedState
  simp only [hhdmV2p_hhdmP2v]
  omega

/-- Loading that does what it is for has a bit for every page. -/
theorem cover_of_loadSpec {s : PmmState} (hs : BootOk s) (h : LoadSpec s) :
    0 < bitmapBytes (pagesOf s.memmap) ∧
      pagesOf s.memmap ≤ 8 * bitmapBytes (pagesOf s.memmap) := by
  obtain ⟨top, base, size, memmap, hc, hw⟩ := wp_pmmLoad hs
  unfold LoadSpec at h
  rw [hw] at h
  obtain ⟨⟨hpos, _⟩, hcover, _⟩ := h
  rw [← hc.size_eq]
  exact ⟨hpos, hcover⟩

/-- Where every page has a bit, loading does what it is for. -/
theorem loadSpec_of_cover {s : PmmState} (hs : BootOk s)
    (hpos : 0 < bitmapBytes (pagesOf s.memmap))
    (hcover : pagesOf s.memmap ≤ 8 * bitmapBytes (pagesOf s.memmap)) : LoadSpec s := by
  obtain ⟨top, base, size, memmap, hc, hw⟩ := wp_pmmLoad hs
  have hsize : size.toNat % 4096 = 0 := by rw [hc.size_eq]; exact Nat.mul_mod_left _ _
  have htop : top.toNat / 4096 = pagesOf s.memmap := by rw [hc.top_eq]; rfl
  rw [← hc.size_eq] at hpos hcover
  have hbyte : ∀ p, p < pagesOf s.memmap → p / 8 < size.toNat := by
    intro p hp
    omega
  unfold LoadSpec
  rw [hw]
  refine ⟨⟨hpos, fun p hp _ => hbyte p hp⟩, hcover, fun p hp => ?_⟩
  rw [clear_loadedState (hbyte p hp), bitmapPage_loadedState hc.aligned hsize, htop,
    hc.missing p hp]
  constructor
  · intro h
    exact Classical.byContradiction fun hn => h ⟨hp, hn⟩
  · intro h hn
    exact hn.2 h

/-- **When loading does what it is for**: exactly when the page count fills a byte of the last
    page of its bitmap. -/
theorem pmmLoad_spec_iff {s : PmmState} (hs : BootOk s) :
    LoadSpec s ↔ 8 ≤ pagesOf s.memmap ∧
      (pagesOf s.memmap % 32768 = 0 ∨ 8 ≤ pagesOf s.memmap % 32768) := by
  rw [← covered_iff]
  exact ⟨cover_of_loadSpec hs, fun h => loadSpec_of_cover hs h.1 h.2⟩

/-- A machine whose first page is taken and whose other pages up to `top` are usable. -/
def bootWith (top : U64) : PmmState :=
  { mem := fun _ => 0
    memmap := [⟨0, 0x1000, .other⟩, ⟨0x1000, top - 0x1000, .usable⟩]
    hhdm := 0xffff800000000000
    pmm := pmmInit }

/-- 128 MB load as they should. -/
theorem pmmLoad_spec_128MB : BootOk (bootWith 0x8000000) ∧ LoadSpec (bootWith 0x8000000) := by
  have hs : BootOk (bootWith 0x8000000) :=
    ⟨⟨by decide, by decide, by decide⟩, ⟨by decide, by decide⟩, rfl, by decide⟩
  exact ⟨hs, (pmmLoad_spec_iff hs).mpr (by decide)⟩

/-- One page more than 128 MB: the bitmap has no bit for the last page. -/
theorem pmmLoad_short_128MB_4KB : BootOk (bootWith 0x8001000) ∧
    ¬ UsablePage (bootWith 0x8001000).memmap 0 ∧ ¬ LoadSpec (bootWith 0x8001000) := by
  have hs : BootOk (bootWith 0x8001000) :=
    ⟨⟨by decide, by decide, by decide⟩, ⟨by decide, by decide⟩, rfl, by decide⟩
  refine ⟨hs, by decide, fun h => ?_⟩
  have hcover := (cover_of_loadSpec hs h).2
  exact absurd hcover (by decide)

end Slightx
