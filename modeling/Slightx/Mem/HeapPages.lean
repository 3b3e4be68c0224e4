/-
  File:      Slightx/Mem/HeapPages.lean
  Subject:   The pages under the kernel's heap, as kernel/mem/heap.c computes them.

  Sources: kernel/mem/heap.c (`heap_load`, `liballoc_alloc`, `liballoc_free`).

  A bit of `heap_map` is one page of the heap. The state has the bitmap's buffer, which belongs to
  nobody else, beside the page maps; a page of the heap is written through the kernel's page map.
  `touched` is no part of the source: it collects the bits that were tested, set or cleared.

  * `heapSearch_fit` -- the search that skips is first fit
  * `Backed` -- pages of the heap with the frames behind them
  * `ends_liballocAlloc` -- what a call finds, maps and pays, and when it panics
  * `wp_liballocFree` -- a block given back
  * `liballoc_firstFit` -- a call gives the first block that fits, and `liballoc_free` undoes it
  * `liballocRollback_exact` -- a call that runs out of frames never rolls back
-/
import Slightx.Lib.FirstFit
import Slightx.Mem.Heap
import Slightx.Mem.UserHalf

namespace Slightx

open Lib

/-! ## 1. The search -/

def heapPageCount (h : HeapRegion) : Nat :=
  ((h.heapEnd - h.heapStart) / MM_VIRT_PAGE_SIZE).toNat

/-- The first page of the request that is outside of the heap or not free. -/
def heapProbe (map : Nat → Bool) (total start requested : Nat) : Option Nat :=
  (List.range requested).find? fun offset => total ≤ start + offset || map (start + offset)

/-- The search of `liballoc_alloc`, from `start` on; `total` is a bound of its passes. -/
def heapSearch (map : Nat → Bool) (total requested : Nat) : Nat → Nat → Option Nat
  | 0, _ => none
  | passes + 1, start =>
      if start < total then
        match heapProbe map total start requested with
        | none => some start
        | some offset => heapSearch map total requested passes (start + offset + 1)
      else none

section Search

variable {map : Nat → Bool} {total requested passes start i : Nat}

theorem heapProbe_none (h : heapProbe map total start requested = none) :
    Room map total requested start := by
  intro i hi
  have hnot := List.find?_eq_none.mp h i (List.mem_range.mpr hi)
  rw [Bool.not_eq_true, Bool.or_eq_false_iff, decide_eq_false_iff_not, Nat.not_le] at hnot
  exact hnot

theorem heapProbe_some (h : heapProbe map total start requested = some i) :
    i < requested ∧ (total ≤ start + i ∨ map (start + i) = true) := by
  have hi := List.mem_of_find?_eq_some h
  have hbusy := List.find?_some h
  rw [Bool.or_eq_true, decide_eq_true_iff] at hbusy
  exact ⟨List.mem_range.mp hi, hbusy⟩

theorem heapSearch_room (h : heapSearch map total requested passes i = some start) :
    Room map total requested start := by
  induction passes generalizing i with
  | zero => cases h
  | succ passes ih =>
      unfold heapSearch at h
      split at h
      · split at h
        · rename_i hprobe
          cases h
          exact heapProbe_none hprobe
        · exact ih h
      · cases h

/-- The starts the search has passed have no room. -/
theorem heapSearch_from (hn : 0 < requested) (hpasses : total ≤ i + passes)
    (hbefore : ∀ t, t < i → ¬ Room map total requested t) :
    FirstFit map total requested (heapSearch map total requested passes i) := by
  induction passes generalizing i with
  | zero =>
      intro t ht
      exact hbefore t (Nat.lt_of_lt_of_le (room_lt ht hn) (by omega)) ht
  | succ passes ih =>
      unfold heapSearch
      split
      · rename_i hlt
        split
        · rename_i hprobe
          exact ⟨heapProbe_none hprobe, hbefore⟩
        · rename_i offset hprobe
          obtain ⟨hoffset, hbusy⟩ := heapProbe_some hprobe
          refine ih (by omega) fun t ht => ?_
          by_cases hold : t < i
          · exact hbefore t hold
          · exact no_room_before hoffset hbusy (by omega) (by omega)
      · intro t ht
        exact hbefore t (Nat.lt_of_lt_of_le (room_lt ht hn) (by omega)) ht

/-- **The search that skips is first fit.** -/
theorem heapSearch_fit (map : Nat → Bool) (total : Nat) (hn : 0 < requested) :
    FirstFit map total requested (heapSearch map total requested total 0) :=
  heapSearch_from hn (by omega) fun t ht => absurd ht (Nat.not_lt_zero t)

end Search

/-! ## 2. The heap -/

/-- The statics of kernel/mem/heap.c after `heap_load`, and the page map of the kernel. -/
structure HeapStatics extends HeapRegion where
  heapMap : Bitmap
  kernelPageMap : PageMap

structure HeapPages where
  vmm : VmmState
  /-- the memory of the bitmap's buffer -/
  bits : Mem
  /-- the bits that were tested, set or cleared -/
  touched : List Nat

/-- `heap_load`; `kernelRegionEnd` is the address of the linker's symbol. -/
def heapLoad (kernelRegionEnd : Uptr) : Prog Fault PmmState (HeapRegion × Bitmap) := do
  let s ← get
  let physMemSize := s.pmm.highestPage
  let heapStart := alignPtrUp (s.hhdm + physMemSize) MM_PAGE_2MB
  let heapEnd := alignPtrUp (heapStart + physMemSize) MM_PAGE_2MB
  assertRelease (heapEnd < kernelRegionEnd) "heap_end.addr < (uptr)&kernel_region_end"
  let region : HeapRegion := { heapStart, heapEnd }
  let total : Usize := BitVec.ofNat 64 (heapPageCount region)
  let bitmapBytes := alignSizeUp (total / 8) MM_PHYS_PAGE_SIZE
  let bitmapPages := bitmapBytes / MM_PHYS_PAGE_SIZE
  let bitmapBufPaddr ← pmmAlloc bitmapPages
  let buffer ← onMem (makeSpan (hhdmP2v s.hhdm bitmapBufPaddr) bitmapBytes)
  let heapMap ← onMem (bitmapInit buffer)
  -- guard pages
  onMem (bitmapSet heapMap 0)
  onMem (bitmapSet heapMap (total - 1).toNat)
  return (region, heapMap)

section Calls

variable (pages1gb : Bool) (h : HeapStatics)

def onPages {α : Type} (x : Prog Fault VmmState α) : Prog Fault HeapPages α :=
  zoom HeapPages.vmm (fun s vmm => { s with vmm }) x

/-- An operation on bit `bit` of `heap_map`. -/
def onHeapMap {α : Type} (op : Bitmap → Nat → Prog Fault Mem α) (bit : Nat) :
    Prog Fault HeapPages α := do
  modify fun s => { s with touched := bit :: s.touched }
  zoom HeapPages.bits (fun s bits => { s with bits }) (op h.heapMap bit)

/-- `memset(va, 0, MM_VIRT_PAGE_SIZE)`, through the page map. -/
def memsetPage (pmap : PageMap) (va : Uptr) : Prog Fault VmmState Unit := do
  assert (va ≠ 0) "dst != NULL"
  let s ← get
  match resolve s.mem pmap va with
  | none => throw (.pageFault va)
  | some pa => set { s with mem := fill s.mem pa MM_VIRT_PAGE_SIZE.toNat 0 }

/-- The inner loop of the search, from offset `requested - k` on: the offset where it breaks. -/
def heapProbeBits (total start requested : Nat) : Nat → Prog Fault HeapPages (Option Nat)
  | 0 => pure none
  | k + 1 => do
      let pageOffset := requested - (k + 1)
      let pageBitIndex := start + pageOffset
      if ← (if total ≤ pageBitIndex then pure true else onHeapMap h bitmapIsset pageBitIndex) then
        return some pageOffset
      else heapProbeBits total start requested k

/-- The outer loop of the search; the inner one moves its variable. -/
def heapFind (total requested : Nat) : Nat → Nat → Prog Fault HeapPages (Option Nat)
  | 0, _ => pure none
  | passes + 1, start => do
      if start < total then
        match ← heapProbeBits h total start requested requested with
        | none => return some start
        | some pageOffset => heapFind total requested passes (start + pageOffset + 1)
      else return none

/-- The flags of a page of the heap. -/
def heapPageFlags : U64 := MM_PT_FLAG_WRITE ||| MM_PT_FLAG_GLOBAL ||| MM_PT_FLAG_NX

/-- The body of the loops that give pages back: the page at `va`, which has bit `bit`. -/
def heapReleasePage (va : Uptr) (bit : Nat) : Prog Fault HeapPages Unit := do
  onPages (releasePage h.kernelPageMap va)
  onHeapMap h bitmapClear bit

/-- The loop over the pages of a block; `false` where it rolled back. -/
def heapMapPages (start requested : Nat) : Prog Fault HeapPages Bool :=
  forUpWhile requested fun pageOffset => do
    let blockStart := vaddrOf h.heapStart start
    let va := vaddrOf blockStart pageOffset
    let pa ← onPages pmmAllocFrame
    if pa = 0 then do
      forUp pageOffset fun j =>
        heapReleasePage h (vaddrOf blockStart (pageOffset - 1 - j)) (start + (pageOffset - 1 - j))
      return false
    else do
      onPages (vmmMap pages1gb h.kernelPageMap va pa heapPageFlags MM_PAGE_4KB)
      onHeapMap h bitmapSet (start + pageOffset)
      onPages (memsetPage h.kernelPageMap va)
      return true

/-- The answer is the null pointer where the source returns `NULL`. -/
def liballocAlloc (pageCount : Int) : Prog Fault HeapPages Uptr := do
  let totalPageCount := heapPageCount h.toHeapRegion
  let requestedPageCount := (BitVec.ofInt 64 pageCount).toNat
  match ← heapFind h totalPageCount requestedPageCount totalPageCount 0 with
  | none => return 0
  | some start => do
      let success ← heapMapPages pages1gb h start requestedPageCount
      return if success then vaddrOf h.heapStart start else 0

def liballocFree (ptr : Uptr) (pageCount : Int) : Prog Fault HeapPages Int := do
  if ptr = 0 ∨ pageCount ≤ 0 then return 0
  else if ptr < h.heapStart ∨ h.heapEnd ≤ ptr ∨ isPtrAligned ptr MM_VIRT_PAGE_SIZE = false then
    return -1
  else do
    let pageRangeBase := ((ptr - h.heapStart) / MM_VIRT_PAGE_SIZE).toNat
    forUp pageCount.toNat fun pageOffset =>
      heapReleasePage h (vaddrOf ptr pageOffset) (pageRangeBase + pageOffset)
    return 0

end Calls

/-! ## 3. Bits -/

/-- `heap_load` has left whole pages of the upper half, and a bit for each. -/
structure HeapStatics.Loaded (h : HeapStatics) : Prop where
  aligned : h.heapStart.toNat % 4096 = 0
  upper : 2 ^ 64 - 4096 * 512 ^ h.kernelPageMap.level.num / 2 ≤ h.heapStart.toNat
  order : h.heapStart.toNat ≤ h.heapEnd.toNat
  valid : h.heapMap.Valid
  covers : heapPageCount h.toHeapRegion ≤ 8 * h.heapMap.buffer.size.toNat

/-- The bits that were used between `s` and `s'` belong to the heap. -/
def InHeap (h : HeapStatics) (s s' : HeapPages) : Prop :=
  ∀ i ∈ s'.touched, i ∈ s.touched ∨ i < heapPageCount h.toHeapRegion

/-- The `n` bits from `start` on are `b`, and all others what they were. -/
def BitsSet (h : HeapStatics) (s s' : HeapPages) (start n : Nat) (b : Bool) : Prop :=
  ∀ i, h.heapMap.bit s'.bits i =
    if start ≤ i ∧ i < start + n then b else h.heapMap.bit s.bits i

/-- The bits as `s` has them. -/
abbrev HeapPages.used (h : HeapStatics) (s : HeapPages) : Nat → Bool := h.heapMap.bit s.bits

section Bits

variable {h : HeapStatics} {s s' s'' : HeapPages} {requested passes start i k : Nat} {b : Bool}

theorem inHeap_refl : InHeap h s s := fun _ hi => Or.inl hi

theorem inHeap_trans (h₁ : InHeap h s s') (h₂ : InHeap h s' s'') : InHeap h s s'' := by
  intro i hi
  rcases h₂ i hi with hi | hi
  · exact h₁ i hi
  · exact Or.inr hi

theorem bitsSet_none : BitsSet h s s start 0 b := by
  intro i
  rw [if_neg (by omega)]

theorem heapPageCount_end (hl : h.Loaded) :
    h.heapStart.toNat + 4096 * heapPageCount h.toHeapRegion ≤ h.heapEnd.toNat := by
  have horder := hl.order
  unfold heapPageCount
  rw [BitVec.toNat_udiv, BitVec.toNat_sub_of_le (BitVec.le_def.mpr horder),
    show MM_VIRT_PAGE_SIZE.toNat = 4096 from rfl]
  omega

/-- An operation on a bit of the heap. -/
theorem heapMap_room (hl : h.Loaded) (hi : i < heapPageCount h.toHeapRegion) :
    i / 8 < h.heapMap.buffer.size.toNat := by
  have := hl.covers
  omega

/-- Testing a bit. -/
theorem wp_heapIsset (hl : h.Loaded) (hi : i < heapPageCount h.toHeapRegion) :
    wp (onHeapMap h bitmapIsset i) s fun b s' =>
      b = s.used h i ∧ s' = { s with touched := i :: s.touched } := by
  unfold onHeapMap
  rw [wp_bind, wp_modify, wp_zoom, wp_bitmapIsset]
  exact ⟨hl.valid, heapMap_room hl hi, rfl, rfl⟩

/-- Setting or clearing the bit behind those that are set or cleared. -/
theorem wp_heapWrite (hl : h.Loaded) (hi : start + k < heapPageCount h.toHeapRegion)
    (hset : BitsSet h s s' start k b) :
    wp (onHeapMap h (if b then bitmapSet else bitmapClear) (start + k)) s' fun _ s'' =>
      s''.vmm = s'.vmm ∧ BitsSet h s s'' start (k + 1) b ∧ InHeap h s' s'' := by
  have hafter : BitsSet h s
      ⟨s'.vmm, h.heapMap.withBit s'.bits (start + k) b, (start + k) :: s'.touched⟩
      start (k + 1) b := by
    intro j
    rw [Bitmap.bit_withBit]
    by_cases hj : start + k = j
    · rw [if_pos hj, if_pos (by omega)]
    · rw [if_neg hj, hset j]
      by_cases hin : start ≤ j ∧ j < start + k
      · rw [if_pos hin, if_pos (by omega)]
      · rw [if_neg hin, if_neg (by omega)]
  have hin : InHeap h s'
      ⟨s'.vmm, h.heapMap.withBit s'.bits (start + k) b, (start + k) :: s'.touched⟩ := by
    intro j hj
    rcases List.mem_cons.mp hj with rfl | hj
    · exact Or.inr hi
    · exact Or.inl hj
  unfold onHeapMap
  rw [wp_bind, wp_modify, wp_zoom]
  cases b with
  | true => exact (wp_bitmapSet _ _ _ _).mpr ⟨hl.valid, heapMap_room hl hi, rfl, hafter, hin⟩
  | false => exact (wp_bitmapClear _ _ _ _).mpr ⟨hl.valid, heapMap_room hl hi, rfl, hafter, hin⟩

/-- The bits were looked at. -/
structure Looked (h : HeapStatics) (s s' : HeapPages) : Prop where
  vmm : s'.vmm = s.vmm
  bits : s'.bits = s.bits
  touched : InHeap h s s'

theorem looked_trans (h₁ : Looked h s s') (h₂ : Looked h s' s'') : Looked h s s'' :=
  ⟨h₂.vmm.trans h₁.vmm, h₂.bits.trans h₁.bits, inHeap_trans h₁.touched h₂.touched⟩

/-- **The inner loop finds what `heapProbe` does.** -/
theorem wp_heapProbeBits (hl : h.Loaded) (hk : k ≤ requested) :
    wp (heapProbeBits h (heapPageCount h.toHeapRegion) start requested k) s fun r s' =>
      r = ((List.range' (requested - k) k).find? fun offset =>
        heapPageCount h.toHeapRegion ≤ start + offset || s.used h (start + offset)) ∧
      Looked h s s' := by
  induction k generalizing s with
  | zero => exact (wp_pure _ _ _).mpr ⟨rfl, rfl, rfl, inHeap_refl⟩
  | succ k ih =>
      have hnext : requested - (k + 1) + 1 = requested - k := by omega
      unfold heapProbeBits
      rw [List.range'_succ, List.find?_cons, hnext, wp_bind]
      by_cases hout : heapPageCount h.toHeapRegion ≤ start + (requested - (k + 1))
      · rw [if_pos hout, wp_pure, if_pos rfl, wp_pure, decide_eq_true hout]
        exact ⟨rfl, rfl, rfl, inHeap_refl⟩
      · rw [if_neg hout, decide_eq_false hout, Bool.false_or]
        refine wp_mono (wp_heapIsset hl (by omega)) fun isset s₁ hs₁ => ?_
        obtain ⟨rfl, rfl⟩ := hs₁
        have hlooked : Looked h s
            { s with touched := (start + (requested - (k + 1))) :: s.touched } := by
          refine ⟨rfl, rfl, fun j hj => ?_⟩
          rcases List.mem_cons.mp hj with rfl | hj
          · exact Or.inr (by omega)
          · exact Or.inl hj
        cases hbit : s.used h (start + (requested - (k + 1))) with
        | true => exact (wp_pure _ _ _).mpr ⟨rfl, hlooked⟩
        | false =>
            refine wp_mono (ih (by omega)) fun r s₂ hs₂ => ?_
            exact ⟨hs₂.1, looked_trans hlooked hs₂.2⟩

/-- **The search finds what `heapSearch` does.** -/
theorem wp_heapFind (hl : h.Loaded) :
    wp (heapFind h (heapPageCount h.toHeapRegion) requested passes start) s fun r s' =>
      r = heapSearch (s.used h) (heapPageCount h.toHeapRegion) requested passes start ∧
      Looked h s s' := by
  induction passes generalizing start s with
  | zero => exact (wp_pure _ _ _).mpr ⟨rfl, rfl, rfl, inHeap_refl⟩
  | succ passes ih =>
      unfold heapFind heapSearch
      by_cases hlt : start < heapPageCount h.toHeapRegion
      · rw [if_pos hlt, if_pos hlt, wp_bind]
        refine wp_mono (wp_heapProbeBits hl (Nat.le_refl requested)) fun r s₁ hs₁ => ?_
        obtain ⟨hr, hlooked⟩ := hs₁
        rw [Nat.sub_self, ← List.range_eq_range'] at hr
        rw [show heapProbe _ _ _ _ = r from hr.symm]
        cases r with
        | none => exact (wp_pure _ _ _).mpr ⟨rfl, hlooked⟩
        | some offset =>
            refine wp_mono ih fun r s₂ hs₂ => ?_
            have hused : s₁.used h = s.used h := by
              unfold HeapPages.used
              rw [hlooked.bits]
            rw [hused] at hs₂
            exact ⟨hs₂.1, looked_trans hlooked hs₂.2⟩
      · rw [if_neg hlt, if_neg hlt]
        exact (wp_pure _ _ _).mpr ⟨rfl, rfl, rfl, inHeap_refl⟩

end Bits

/-! ## 4. Pages with their frames -/

/-- The frame a page map has for page `key`. -/
abbrev frameOf (pmap : PageMap) (s : VmmState) (key : Nat) : Option Nat :=
  pageView.look s.mem key pmap.level.num pmap.directory

/-- The pages from `key` on go to the frames `fr`, each through an entry of its own. -/
structure Backed (pmap : PageMap) (key : Nat) (own : Uptr → Option (Nat × Nat)) (s : VmmState)
    (fr : List Uptr) : Prop where
  map : IsPageMap own pmap s
  nonzero : ∀ f ∈ s.free, f ≠ 0
  page : ∀ i (hi : i < fr.length), frameOf pmap s (key + i) = some (fr[i].toNat / 4096)
  small : ∀ i, i < fr.length →
    ∃ t, Stage own s pmap.level.num pmap.directory (key + i) 1 t
  frame : ∀ f ∈ fr, FrameOk f ∧ f ≠ 0 ∧ f ∉ s.free ∧ own f = none
  once : fr.Nodup

section Pages

variable {pmap : PageMap} {own own' : Uptr → Option (Nat × Nat)} {s s' : VmmState} {key n i : Nat}
  {fr rest : List Uptr} {f va flags : U64}

/-- Behind a table of level 1 the leaf is one page. -/
theorem level_of_stage {t root : Uptr} {top : Nat} (h : Stage own s top root key 1 t) {hit : Hit}
    (hw : walk s.mem key top root = some hit) : hit.level = 1 := by
  obtain ⟨-, g, hreach⟩ := h
  rw [walk_reach hreach] at hw
  obtain ⟨leaf, hleaf, rfl⟩ := Option.map_eq_some_iff.mp hw
  rw [reach_hitLevel hreach]
  have := level_of_walk hleaf
  omega

/-- **A call of `vmm_unmap` for a page with an entry of its own.** -/
theorem wp_vmmUnmap_page (h : IsPageMap own pmap s)
    (hlev : ∀ hit, hwWalk s.mem pmap va = some hit → hit.level = 1) :
    wp (vmmUnmap pmap va) s fun _ s' => IsPageMap own pmap s' ∧ s'.free = s.free ∧
      (∀ key, key < 512 ^ pmap.level.num → key ≠ pageNumber pmap.level.num va →
        frameOf pmap s' key = frameOf pmap s key) ∧
      ∀ top root key M u, M ≠ 0 → Stage own s top root key M u → Stage own s' top root key M u := by
  have hroot := mapRoot_label h.root (pageNumber_lt pmap.level.num va)
  refine wp_mono (wp_vmmUnmap_cleared va h.inv h.root) fun _ s' hc => ?_
  have hunmaps := unmaps_cleared h.inv h.plain hroot hc
  cases hc with
  | missed hw hs =>
      subst hs
      exact ⟨h, rfl, fun _ _ _ => rfl, fun _ _ _ _ _ _ hs => hs⟩
  | @found K u g hit hw hreach hlevel hs =>
      subst hs
      have hone := hlev hit hw
      obtain rfl : K = 0 := by omega
      have hu := reach_label (by decide) h.inv.labelled hroot hreach
      refine ⟨⟨hunmaps.grow.inv, hunmaps.plain, h.root⟩, rfl, fun key hkey hne => ?_,
        fun top root key M v hM hs => stage_stored h.inv hu (slot_lt _ 0) hs (by omega)⟩
      refine (hunmaps.found hit hw key (mapRoot_label h.root hkey)).trans
        (if_neg fun hsame => hne ?_)
      rw [hone, Nat.sub_self, Nat.pow_zero, Nat.div_one, Nat.div_one] at hsame
      exact hsame

theorem backed_nil (h : IsPageMap own pmap s) (hfree : ∀ f ∈ s.free, f ≠ 0) :
    Backed pmap key own s [] :=
  ⟨h, hfree, fun _ hi => absurd hi (Nat.not_lt_zero _), fun _ hi => absurd hi (Nat.not_lt_zero _),
    fun _ hf => absurd hf List.not_mem_nil, List.nodup_nil⟩

/-- Memory off the tables may change, and fewer frames may be free. -/
theorem backed_same (h : Backed pmap key own s fr) (hkey : key + fr.length ≤ 512 ^ pmap.level.num)
    (hsame : ∀ u, own u ≠ none → ∀ j, j < 512 → pteAt s'.mem u j = pteAt s.mem u j)
    (hfree : ∀ f ∈ s'.free, f ∈ s.free) (hnodup : s'.free.Nodup) :
    Backed pmap key own s' fr := by
  refine ⟨isPageMap_same h.map hsame (fun f hf => h.map.inv.free f (hfree f hf)) hnodup,
    fun f hf => h.nonzero f (hfree f hf), fun i hi => ?_, fun i hi => ?_, fun f hf => ?_, h.once⟩
  · rw [← h.page i hi]
    exact look_same h.map.inv hsame (mapRoot_label h.map.root (by omega))
  · obtain ⟨t, ht⟩ := h.small i hi
    exact ⟨t, stage_same h.map.inv hsame ht⟩
  · obtain ⟨hok, hf0, hout, htable⟩ := h.frame f hf
    exact ⟨hok, hf0, fun hin => hout (hfree f hin), htable⟩

/-- **The next page gets a frame.** -/
theorem backed_put (h : Backed pmap key own s fr) (hkey : key + fr.length < 512 ^ pmap.level.num)
    (hva : pageNumber pmap.level.num va = key + fr.length) (ha : MapArgs va f flags MM_PAGE_4KB)
    (hf : f ≠ 0 ∧ f ∉ s.free ∧ own f = none ∧ f ∉ fr) (hp : Put pmap va f flags own s own' s' 1) :
    Backed pmap key own' s' (fr ++ [f]) := by
  have hleaf := leafArgs_of_mapArgs (L := 1) ha (by omega) rfl
  have hroot := mapRoot_label h.map.root (pageNumber_lt pmap.level.num va)
  obtain ⟨hmap', hmaps⟩ := isPageMap_put h.map hleaf ha.va_aligned hp
  have hgrow := hmaps.grow
  -- what was no table and is not free is no table now
  have htable : ∀ g, g ∉ s.free → own g = none → g ∉ s'.free ∧ own' g = none := by
    intro g hg hold
    refine ⟨fun hin => hg (hgrow.suffix.subset hin), ?_⟩
    by_contra hnew
    rcases hgrow.fresh g hnew with ht | ht
    · exact ht hold
    · exact hg ht
  refine ⟨hmap', fun g hg => h.nonzero g (hgrow.suffix.subset hg), fun i hi => ?_, fun i hi => ?_,
    fun g hg => ?_, ?_⟩
  · rw [List.length_append, List.length_singleton] at hi
    by_cases hlast : i = fr.length
    · subst hlast
      rw [List.getElem_append_right (Nat.le_refl _)]
      rw [← hva]
      refine (hmaps.here _ hroot (Nat.le_refl _) (by omega)).trans ?_
      rw [Nat.add_sub_cancel]
      simp
    · have hlt : i < fr.length := by omega
      rw [List.getElem_append_left hlt, ← h.page i hlt]
      refine hmaps.other _ _ _ (mapRoot_label h.map.root (by omega)) fun hin => ?_
      rw [hva] at hin
      omega
  · rw [List.length_append, List.length_singleton] at hi
    by_cases hlast : i = fr.length
    · subst hlast
      obtain ⟨s₁, t, hw, rfl⟩ := hp
      obtain ⟨hgrow₁, hstage⟩ := leads_stage h.map.inv hroot hw (by decide)
      rw [hva] at hstage ⊢
      exact ⟨t, stage_stored hgrow₁.inv (stage_label hgrow₁.inv hstage) (slot_lt _ _) hstage
        (Nat.le_refl _)⟩
    · obtain ⟨t, ht⟩ := h.small i (by omega)
      exact ⟨t, stage_put h.map.inv h.map.root (by decide) ht hp (Nat.le_refl _)⟩
  · rcases List.mem_append.mp hg with hg | hg
    · obtain ⟨hok, hg0, hout, hold⟩ := h.frame g hg
      exact ⟨hok, hg0, htable g hout hold⟩
    · rw [List.mem_singleton.mp hg]
      exact ⟨leafArgs_frame hleaf, hf.1, htable f hf.2.1 hf.2.2.1⟩
  · refine List.nodup_append.mpr ⟨h.once, List.nodup_singleton f, fun g hg g' hg' hgg => ?_⟩
    rw [List.mem_singleton.mp hg'] at hgg
    exact hf.2.2.2 (hgg ▸ hg)

/-- **The first page is given back, with its frame.** -/
theorem wp_releasePage_backed (h : Backed pmap key own s (f :: fr))
    (hkey : key + fr.length < 512 ^ pmap.level.num) (hva : pageNumber pmap.level.num va = key)
    (haligned : va.toNat % 4096 = 0) :
    wp (releasePage pmap va) s fun _ s' =>
      Backed pmap (key + 1) own s' fr ∧ s'.free = f :: s.free := by
  obtain ⟨hframe, hf0, hout, htable⟩ := h.frame f List.mem_cons_self
  obtain ⟨t, ht⟩ := h.small 0 (Nat.succ_pos _)
  have hpage := h.page 0 (Nat.succ_pos _)
  rw [Nat.add_zero] at ht hpage
  have hlev : ∀ hit, hwWalk s.mem pmap va = some hit → hit.level = 1 := by
    intro hit hw
    unfold hwWalk at hw
    rw [hva] at hw
    exact level_of_stage ht hw
  have hfa := hframe.aligned
  unfold releasePage
  rw [wp_bind]
  refine wp_mono (wp_vmmTranslate_page (f := f.toNat / 4096) h.map hlev haligned ?_)
    fun a s₁ ha => ?_
  · rw [hva]
    exact hpage
  obtain ⟨ha, rfl⟩ := ha
  obtain rfl : a = f := by
    apply BitVec.eq_of_toNat_eq
    omega
  rw [wp_bind]
  refine wp_mono (wp_vmmUnmap_page h.map hlev) fun _ s₂ hu => ?_
  obtain ⟨hmap, hfree, hother, hstage⟩ := hu
  obtain ⟨hnew, honce⟩ := List.nodup_cons.mp h.once
  unfold pmmFreeFrame
  rw [wp_modify, frame_round hframe, hfree]
  refine ⟨⟨isPageMap_same hmap (fun _ _ _ _ => rfl) (fun g hg => ?_)
    (List.nodup_cons.mpr ⟨hout, h.map.inv.nodup⟩), fun g hg => ?_, fun i hi => ?_, fun i hi => ?_,
    fun g hg => ?_, honce⟩, rfl⟩
  · rcases List.mem_cons.mp hg with rfl | hg
    · exact ⟨hframe, htable⟩
    · exact h.map.inv.free g hg
  · rcases List.mem_cons.mp hg with rfl | hg
    · exact hf0
    · exact h.nonzero g hg
  · have hold := h.page (i + 1) (Nat.succ_lt_succ hi)
    rw [List.getElem_cons_succ] at hold
    rw [show key + 1 + i = key + (i + 1) by omega, ← hold]
    exact hother _ (by omega) (by omega)
  · obtain ⟨t', ht'⟩ := h.small (i + 1) (Nat.succ_lt_succ hi)
    rw [show key + 1 + i = key + (i + 1) by omega]
    exact ⟨t', hstage _ _ _ _ _ (by decide) ht'⟩
  · obtain ⟨hok, hg0, hg', htab⟩ := h.frame g (List.mem_cons_of_mem _ hg)
    refine ⟨hok, hg0, fun hin => ?_, htab⟩
    rcases List.mem_cons.mp hin with rfl | hin
    · exact hnew hg
    · exact hg' hin

end Pages

/-! ## 5. A block mapped -/

/-- The pages from `key` on have the frames `fr` and the tables they lacked, and cost as much. -/
structure BlockMapped (pmap : PageMap) (s₀ : VmmState) (key : Nat) (own : Uptr → Option (Nat × Nat))
    (s : VmmState) (fr : List Uptr) : Prop where
  backed : Backed pmap key own s fr
  lack : ∀ i M, key + i < 512 ^ pmap.level.num → M ≠ 0 → M ≤ pmap.level.num →
    (lacks s.mem (key + i) pmap.level.num pmap.directory < M ↔
      lacks s₀.mem (key + i) pmap.level.num pmap.directory < M ∨
        ∃ j, j < fr.length ∧ (key + i) / 512 ^ M = (key + j) / 512 ^ M)
  cost : s₀.free.length =
    rangeFrames s₀.mem pmap.level.num pmap.directory key fr.length + s.free.length

/-- The frames that the `n` pages from bit `start` on need. -/
abbrev blockFrames (h : HeapStatics) (s : HeapPages) (start n : Nat) : Nat :=
  rangeFrames s.vmm.mem h.kernelPageMap.level.num h.kernelPageMap.directory
    (pageNumber h.kernelPageMap.level.num h.heapStart + start) n

/-- A heap in use: the page map of the kernel is one, and page 0 is no free frame. -/
structure HeapReady (h : HeapStatics) (own : Uptr → Option (Nat × Nat)) (s : HeapPages) : Prop where
  map : IsPageMap own h.kernelPageMap s.vmm
  nonzero : ∀ f ∈ s.vmm.free, f ≠ 0

section Blocks

variable {pmap : PageMap} {own : Uptr → Option (Nat × Nat)} {s₀ s : VmmState} {key : Nat}
  {fr rest : List Uptr} {f va flags : U64}

theorem blockMapped_nil (h : IsPageMap own pmap s₀) (hfree : ∀ f ∈ s₀.free, f ≠ 0) :
    BlockMapped pmap s₀ key own s₀ [] := by
  refine ⟨backed_nil h hfree, fun i M _ _ _ => ⟨Or.inl, fun hor => ?_⟩, ?_⟩
  · rcases hor with hl | ⟨j, hj, -⟩
    · exact hl
    · exact absurd hj (Nat.not_lt_zero j)
  · show _ = 0 + 0 + _
    omega

/-- **The next page of a block**: a free frame and the tables its way lacks, or no more frames. -/
theorem ends_mapNext (pages1gb : Bool) (h : BlockMapped pmap s₀ key own s fr)
    (hkey : key + fr.length < 512 ^ pmap.level.num)
    (hva : pageNumber pmap.level.num va = key + fr.length) (haligned : va.toNat % 4096 = 0)
    (hflags : flags &&& 0x000FFFFFFFFFF000 = 0#64) (hfree : s.free = f :: rest) :
    ends (vmmMap pages1gb pmap va f flags MM_PAGE_4KB) (s.taken f rest)
      (fun _ s' => ∃ own', BlockMapped pmap s₀ key own' s' (fr ++ [f]))
      (fun e => e = noFrames ∧ s₀.free.length <
        rangeFrames s₀.mem pmap.level.num pmap.directory key (fr.length + 1)) := by
  have hb := h.backed
  have hmem : f ∈ s.free := by rw [hfree]; exact List.mem_cons_self
  have hrest : ∀ g ∈ rest, g ∈ s.free := fun g hg => by rw [hfree]; exact List.mem_cons_of_mem _ hg
  have hnd := hb.map.inv.nodup
  rw [hfree, List.nodup_cons] at hnd
  obtain ⟨hframe, htable⟩ := hb.map.inv.free f hmem
  have hnew : f ∉ fr := fun hin => (hb.frame f hin).2.2.1 hmem
  have hsame : ∀ u, own u ≠ none → ∀ j, j < 512 →
      pteAt (s.taken f rest).mem u j = pteAt s.mem u j := fun u hu j hj =>
    taken_pte hb.map.inv hfree hu hj
  have hb' : Backed pmap key own (s.taken f rest) fr :=
    backed_same hb (Nat.le_of_lt hkey) hsame hrest hnd.2
  have ha : MapArgs va f flags MM_PAGE_4KB :=
    ⟨Or.inl rfl, haligned, hframe.aligned, hframe.low, hflags⟩
  have hleaf := leafArgs_of_mapArgs (L := 1) ha (by omega) rfl
  have hnum := mapRoot_num hb.map.root
  have hlack : ∀ key', key' < 512 ^ pmap.level.num →
      lacks (s.taken f rest).mem key' pmap.level.num pmap.directory =
        lacks s.mem key' pmap.level.num pmap.directory := fun key' hkey' =>
    lacks_same hb.map.inv hsame (mapRoot_label hb.map.root hkey')
  have hcard := card_lacking_succ (by rcases hnum with hl | hl <;> omega)
    fun M hM hL => h.lack fr.length M hkey hM hL
  have hcost := h.cost
  rw [hfree, List.length_cons] at hcost
  refine ends_mono (ends_vmmMap_4KB pages1gb ha hb'.map.inv hb'.map.root) (fun _ s' hp => ?_)
    fun e he => ?_
  · obtain ⟨own', ⟨hput, new, hsplit, hnewcost, -⟩⟩ := hp
    rw [vaLacks, hva, hlack _ hkey] at hnewcost
    refine ⟨own', backed_put hb' hkey hva ha ⟨hb.nonzero f hmem, hnd.1, htable, hnew⟩ hput,
      fun i M hi hM hL => ?_, ?_⟩
    · rw [put_lack hb'.map.inv hb'.map.root hleaf hput hi hM hL, hva, hlack _ hi,
        h.lack i M hi hM hL, List.length_append, List.length_singleton, or_assoc]
      refine or_congr_right ⟨fun hor => ?_, fun hex => ?_⟩
      · rcases hor with ⟨j, hj, hje⟩ | hlast
        · exact ⟨j, by omega, hje⟩
        · exact ⟨fr.length, by omega, hlast⟩
      · obtain ⟨j, hj, hje⟩ := hex
        by_cases hjl : j = fr.length
        · exact Or.inr (hjl ▸ hje)
        · exact Or.inl ⟨j, by omega, hje⟩
    · have hlen : rest.length = new.length + s'.free.length := by
        rw [show rest = new ++ s'.free from hsplit, List.length_append]
      rw [List.length_append, List.length_singleton]
      unfold rangeFrames at hcost ⊢
      omega
  · obtain ⟨rfl, hlt⟩ := he
    rw [hva, hlack _ hkey] at hlt
    refine ⟨rfl, ?_⟩
    change rest.length < _ at hlt
    unfold rangeFrames at hcost ⊢
    omega

/-- A page of the block is zeroed. -/
theorem wp_memsetPage (h : BlockMapped pmap s₀ key own s (fr ++ [f]))
    (hkey : key + fr.length < 512 ^ pmap.level.num)
    (hva : pageNumber pmap.level.num va = key + fr.length) (haligned : va.toNat % 4096 = 0)
    (hnull : va ≠ 0) :
    wp (memsetPage pmap va) s fun _ s' => BlockMapped pmap s₀ key own s' (fr ++ [f]) := by
  have hb := h.backed
  have hlen : (fr ++ [f]).length = fr.length + 1 := by
    rw [List.length_append, List.length_singleton]
  obtain ⟨hframe, -, hout, htable⟩ :=
    hb.frame f (List.mem_append_right _ (List.mem_singleton_self f))
  have hpage := hb.page fr.length (by omega)
  rw [List.getElem_append_right (Nat.le_refl _)] at hpage
  have hres : resolve s.mem pmap va = some f.toNat := by
    have hfa := hframe.aligned
    rw [resolve_eq s.mem (mapRoot_num hb.map.root), hva, show pageView.look _ _ _ _ = _ from hpage]
    refine congrArg some ?_
    simp only [Nat.sub_self, List.getElem_cons_zero]
    omega
  unfold memsetPage
  rw [wp_bind, wp_assert, wp_bind, wp_get, hres]
  have hsame : ∀ u, own u ≠ none → ∀ j, j < 512 →
      pteAt (fill s.mem f.toNat 4096 0) u j = pteAt s.mem u j := by
    intro u hu j hj
    obtain ⟨⟨L, p⟩, hL⟩ := Option.ne_none_iff_exists'.mp hu
    refine (pteAt_fill hframe (hb.map.inv.frame u L p hL) hj).trans (if_neg fun huf => hu ?_)
    rw [huf]
    exact htable
  refine ⟨hnull, (wp_set _ _ _).mpr ⟨backed_same hb (by omega) hsame (fun g hg => hg)
    hb.map.inv.nodup, fun i M hi hM hL => ?_, h.cost⟩⟩
  rw [← h.lack i M hi hM hL]
  have hlack : lacks (VmmState.mk (fill s.mem f.toNat 4096 0) s.free).mem (key + i) pmap.level.num
      pmap.directory = lacks s.mem (key + i) pmap.level.num pmap.directory :=
    lacks_same hb.map.inv hsame (mapRoot_label hb.map.root hi)
  exact hlack ▸ Iff.rfl

end Blocks

/-! ## 6. `liballoc_alloc` and `liballoc_free` -/

/-- The guard pages have their bits. -/
def HeapGuarded (h : HeapStatics) (s : HeapPages) : Prop :=
  s.used h 0 = true ∧ s.used h (heapPageCount h.toHeapRegion - 1) = true

/-- The pages of the block at bit `start` that have the frames `fr` so far, with their bits. -/
structure BlockTaken (h : HeapStatics) (s₀ : HeapPages) (start : Nat)
    (own : Uptr → Option (Nat × Nat)) (s : HeapPages) (fr : List Uptr) : Prop where
  mapped : BlockMapped h.kernelPageMap s₀.vmm
    (pageNumber h.kernelPageMap.level.num h.heapStart + start) own s.vmm fr
  bits : BitsSet h s₀ s start fr.length true
  touched : InHeap h s₀ s

section Calls

variable {h : HeapStatics} {own : Uptr → Option (Nat × Nat)} {s₀ s s' : HeapPages}
  {start n i k : Nat} {fr : List Uptr} {pages1gb : Bool}

/-- The addresses of the heap. -/
structure IsHeapPage (h : HeapStatics) (i : Nat) (va : Uptr) : Prop where
  addr : va.toNat = h.heapStart.toNat + 4096 * i
  aligned : va.toNat % 4096 = 0
  nonzero : va ≠ 0
  number : pageNumber h.kernelPageMap.level.num va =
    pageNumber h.kernelPageMap.level.num h.heapStart + i
  low : pageNumber h.kernelPageMap.level.num h.heapStart + i < 512 ^ h.kernelPageMap.level.num

theorem heapPage_number (hl : h.Loaded)
    (hnum : h.kernelPageMap.level.num = 4 ∨ h.kernelPageMap.level.num = 5)
    (hi : i < heapPageCount h.toHeapRegion) {va : Uptr}
    (hva : va.toNat = h.heapStart.toNat + 4096 * i) : IsHeapPage h i va := by
  have haligned := hl.aligned
  have hupper := hl.upper
  have hend := heapPageCount_end hl
  have hlt := h.heapEnd.isLt
  refine ⟨hva, by omega, fun h0 => ?_, ?_, ?_⟩
  · rw [h0] at hva
    change 0 = _ at hva
    rcases hnum with hl4 | hl5
    · rw [hl4] at hupper
      omega
    · rw [hl5] at hupper
      omega
  · unfold pageNumber
    rcases hnum with hl4 | hl5
    · rw [hl4] at hupper ⊢
      omega
    · rw [hl5] at hupper ⊢
      omega
  · unfold pageNumber
    rcases hnum with hl4 | hl5
    · rw [hl4] at hupper ⊢
      omega
    · rw [hl5] at hupper ⊢
      omega

/-- The pages of a block. -/
theorem heapPage_block (start i : Nat) (hl : h.Loaded)
    (hnum : h.kernelPageMap.level.num = 4 ∨ h.kernelPageMap.level.num = 5)
    (hi : start + i < heapPageCount h.toHeapRegion) :
    IsHeapPage h (start + i) (vaddrOf (vaddrOf h.heapStart start) i) := by
  have hend := heapPageCount_end hl
  have hlt := h.heapEnd.isLt
  have hstart := toNat_vaddrOf h.heapStart start (by omega)
  refine heapPage_number hl hnum hi ?_
  rw [toNat_vaddrOf _ _ (by omega), hstart]
  omega

theorem heapPageFlags_addr : heapPageFlags &&& 0x000FFFFFFFFFF000 = 0#64 := by decide

/-- **The loop of `liballoc_alloc` over the pages of its block.** -/
theorem ends_heapMapPages (pages1gb : Bool) (hl : h.Loaded) (hs : HeapReady h own s₀)
    (hroom : start + n ≤ heapPageCount h.toHeapRegion) :
    ends (heapMapPages pages1gb h start n) s₀
      (fun b s => b = true ∧ ∃ own' fr, fr.length = n ∧ BlockTaken h s₀ start own' s fr)
      (fun e => e = noFrames ∧ s₀.vmm.free.length < blockFrames h s₀ start n) := by
  have hnum := mapRoot_num hs.map.root
  unfold heapMapPages
  refine ends_mono (ends_forUpWhile
    (fun i s => ∃ own' fr, fr.length = i ∧ BlockTaken h s₀ start own' s fr) (fun _ => False)
    ⟨own, [], rfl, blockMapped_nil hs.map hs.nonzero, bitsSet_none, inHeap_refl⟩
    fun i s hi hinv => ?_) (fun b s hb => ?_) fun _ he => he
  · obtain ⟨own', fr, rfl, ht⟩ := hinv
    have hpage := heapPage_block start fr.length hl hnum (by omega)
    have hnumber := hpage.number
    have hlow := hpage.low
    rw [← Nat.add_assoc] at hnumber hlow
    have hcost := ht.mapped.cost
    have hmore : blockFrames h s₀ start (fr.length + 1) ≤ blockFrames h s₀ start n := by
      rcases Nat.lt_or_eq_of_le (show fr.length + 1 ≤ n from hi) with hlt | heq
      · exact Nat.le_of_lt (rangeFrames_lt hlt)
      · rw [heq]
    have hone : blockFrames h s₀ start fr.length < blockFrames h s₀ start (fr.length + 1) :=
      rangeFrames_lt (Nat.lt_succ_self _)
    unfold onPages
    rw [ends_bind, ends_zoom]
    by_cases hfree : s.vmm.free = []
    · rw [hfree, List.length_nil, Nat.add_zero] at hcost
      refine (ends_of_stops (pmmAllocFrame_stops hfree)).mpr ⟨rfl, ?_⟩
      rw [hcost]
      exact Nat.lt_of_lt_of_le hone hmore
    · obtain ⟨f, rest, hcons⟩ := List.exists_cons_of_ne_nil hfree
      have hf0 : f ≠ 0 := ht.mapped.backed.nonzero f (by rw [hcons]; exact List.mem_cons_self)
      refine ends_of_wp ((wp_pmmAllocFrame hcons _).mpr ?_)
      rw [if_neg hf0, ends_bind, ends_zoom]
      refine ends_mono (ends_mapNext pages1gb ht.mapped hlow hnumber hpage.aligned
        heapPageFlags_addr hcons) (fun _ v hv => ?_) fun e he => ?_
      · obtain ⟨own'', hv⟩ := hv
        rw [ends_bind]
        refine ends_of_wp (wp_mono (wp_heapWrite (b := true) hl (by omega) ht.bits)
          fun _ t hw => ?_)
        obtain ⟨hvmm, hbits, hin⟩ := hw
        change t.vmm = v at hvmm
        rw [ends_bind, ends_zoom, hvmm]
        refine ends_of_wp (wp_mono (wp_memsetPage hv hlow hnumber hpage.aligned hpage.nonzero)
          fun _ w hw => ?_)
        rw [ends_pure, if_pos rfl]
        refine ⟨own'', fr ++ [f], by rw [List.length_append, List.length_singleton], hw, ?_,
          inHeap_trans ht.touched hin⟩
        rw [List.length_append, List.length_singleton]
        exact hbits
      · exact ⟨he.1, Nat.lt_of_lt_of_le he.2 hmore⟩
  · cases b with
    | true => exact ⟨rfl, hb⟩
    | false => exact hb.elim

/-- What `liballoc_alloc` answers to a request for `n` pages, and in which state. -/
inductive Allocated (h : HeapStatics) (s : HeapPages) (n : Nat) : Uptr → HeapPages → Prop where
  | full {s' : HeapPages} (hfit : FirstFit (s.used h) (heapPageCount h.toHeapRegion) n none)
      (hlooked : Looked h s s') : Allocated h s n 0 s'
  | block {s' : HeapPages} {start : Nat} {own : Uptr → Option (Nat × Nat)} {fr : List Uptr}
      (hfit : FirstFit (s.used h) (heapPageCount h.toHeapRegion) n (some start))
      (hlen : fr.length = n) (ht : BlockTaken h s start own s' fr) :
      Allocated h s n (vaddrOf h.heapStart start) s'

/-- The frames run out: they do not suffice for the first block of `n` pages. -/
def RunsOut (h : HeapStatics) (s : HeapPages) (n : Nat) : Prop :=
  ∃ start, FirstFit (s.used h) (heapPageCount h.toHeapRegion) n (some start) ∧
    s.vmm.free.length < blockFrames h s start n

/-- Looking at bits first makes no difference. -/
theorem blockTaken_looked (hlooked : Looked h s₀ s) (ht : BlockTaken h s start own s' fr) :
    BlockTaken h s₀ start own s' fr := by
  obtain ⟨hmapped, hbits, htouched⟩ := ht
  rw [hlooked.vmm] at hmapped
  refine ⟨hmapped, fun i => ?_, inHeap_trans hlooked.touched htouched⟩
  rw [← hlooked.bits]
  exact hbits i

/-- **What a call of `liballoc_alloc` does, and when it panics.** -/
theorem ends_liballocAlloc (pages1gb : Bool) (hl : h.Loaded) (hs : HeapReady h own s)
    {pageCount : Int} (hn : (BitVec.ofInt 64 pageCount).toNat = n) (hpos : 0 < n) :
    ends (liballocAlloc pages1gb h pageCount) s (Allocated h s n)
      (fun e => e = noFrames ∧ RunsOut h s n) := by
  have hfit := heapSearch_fit (s.used h) (heapPageCount h.toHeapRegion) hpos
  unfold liballocAlloc
  rw [ends_bind, hn]
  refine ends_of_wp (wp_mono (wp_heapFind hl) fun r s₁ hr => ?_)
  obtain ⟨hr, hlooked⟩ := hr
  rw [← hr] at hfit
  cases r with
  | none => exact .full hfit hlooked
  | some start =>
      have hs₁ : HeapReady h own s₁ := ⟨hlooked.vmm ▸ hs.map, hlooked.vmm ▸ hs.nonzero⟩
      have hroom : start + n ≤ heapPageCount h.toHeapRegion := by
        have := (hfit.1 (n - 1) (by omega)).1
        omega
      show ends (heapMapPages pages1gb h start n >>= _) s₁ _ _
      rw [ends_bind]
      refine ends_mono (ends_heapMapPages pages1gb hl hs₁ hroom) (fun b s₂ hb => ?_) fun e he => ?_
      · obtain ⟨rfl, own', fr, hlen, ht⟩ := hb
        exact .block hfit hlen (blockTaken_looked hlooked ht)
      · have hshort := he.2
        unfold blockFrames at hshort
        rw [hlooked.vmm] at hshort
        exact ⟨he.1, start, hfit, hshort⟩

/-- A call that gives a block has paid for it. -/
theorem not_runsOut {p : Uptr} (h' : Allocated h s n p s') : ¬ RunsOut h s n := by
  intro hout
  obtain ⟨start, hfit, hshort⟩ := hout
  cases h' with
  | full hnone _ => exact absurd (firstFit_unique hfit hnone) (Option.some_ne_none _)
  | @block _ start' _ fr hfit' hlen ht =>
      cases firstFit_unique hfit hfit'
      have hcost := ht.mapped.cost
      rw [hlen] at hcost
      unfold blockFrames at hshort
      omega

/-- A page of a block is given back, and its bit. -/
theorem wp_heapReleasePage {key : Nat} {f va : Uptr} (hl : h.Loaded)
    (hb : Backed h.kernelPageMap key own s.vmm (f :: fr))
    (hkey : key + fr.length < 512 ^ h.kernelPageMap.level.num)
    (hva : pageNumber h.kernelPageMap.level.num va = key) (haligned : va.toNat % 4096 = 0)
    (hi : start + k < heapPageCount h.toHeapRegion) (hbits : BitsSet h s₀ s start k false) :
    wp (heapReleasePage h va (start + k)) s fun _ s' =>
      Backed h.kernelPageMap (key + 1) own s'.vmm fr ∧ s'.vmm.free = f :: s.vmm.free ∧
        BitsSet h s₀ s' start (k + 1) false ∧ InHeap h s s' := by
  unfold heapReleasePage onPages
  rw [wp_bind, wp_zoom]
  refine wp_mono (wp_releasePage_backed hb hkey hva haligned) fun _ v hv => ?_
  refine wp_mono (wp_heapWrite (b := false) hl hi hbits) fun _ t ht => ?_
  obtain ⟨hvmm, hbits', hin⟩ := ht
  change t.vmm = v at hvmm
  rw [hvmm]
  exact ⟨hv.1, hv.2, hbits', hin⟩

/-- **A block is given back**: its bits are clear, and its frames are free. -/
theorem wp_liballocFree (hl : h.Loaded) (hroom : start + fr.length ≤ heapPageCount h.toHeapRegion)
    (hb : Backed h.kernelPageMap (pageNumber h.kernelPageMap.level.num h.heapStart + start) own
      s.vmm fr) {pageCount : Int} (hn : pageCount = fr.length) (hpos : 0 < fr.length) :
    wp (liballocFree h (vaddrOf h.heapStart start) pageCount) s fun rc s' =>
      rc = 0 ∧ HeapReady h own s' ∧ s'.vmm.free = fr.reverse ++ s.vmm.free ∧
        BitsSet h s s' start fr.length false ∧ InHeap h s s' := by
  have hnum := mapRoot_num hb.map.root
  have hpage := heapPage_block start 0 hl hnum (by omega)
  have hend := heapPageCount_end hl
  have hlt := h.heapEnd.isLt
  have haligned := hl.aligned
  have hstart := toNat_vaddrOf h.heapStart start (by omega)
  have hnull : vaddrOf h.heapStart start ≠ 0 := by
    have h0 : vaddrOf (vaddrOf h.heapStart start) 0 = vaddrOf h.heapStart start := BitVec.add_zero _
    rw [← h0]
    exact hpage.nonzero
  have hbase : ((vaddrOf h.heapStart start - h.heapStart) / MM_VIRT_PAGE_SIZE).toNat = start := by
    rw [BitVec.toNat_udiv, BitVec.toNat_sub_of_le (by rw [BitVec.le_def]; omega), hstart,
      show MM_VIRT_PAGE_SIZE.toNat = 4096 from rfl]
    omega
  have hcount : pageCount.toNat = fr.length := by omega
  unfold liballocFree
  rw [if_neg (not_or.mpr ⟨hnull, by omega⟩), if_neg, hbase, hcount, wp_bind]
  · refine wp_mono (wp_forUp (fun i t =>
      Backed h.kernelPageMap (pageNumber h.kernelPageMap.level.num h.heapStart + start + i) own
        t.vmm (fr.drop i) ∧ t.vmm.free = (fr.take i).reverse ++ s.vmm.free ∧
        BitsSet h s t start i false ∧ InHeap h s t) ⟨hb, rfl, bitsSet_none, inHeap_refl⟩
      fun i t hi hinv => ?_) fun _ t ht => ?_
    · obtain ⟨hbt, hfree, hbits, hin⟩ := hinv
      have hpage' := heapPage_block start i hl hnum (by omega)
      have hnumber := hpage'.number
      rw [← Nat.add_assoc] at hnumber
      have hdrop : fr.drop i = fr[i] :: fr.drop (i + 1) := List.drop_eq_getElem_cons hi
      have hlast := (heapPage_block start (fr.length - 1) hl hnum (by omega)).low
      rw [hdrop] at hbt
      refine wp_mono (wp_heapReleasePage hl hbt ?_ hnumber hpage'.aligned (by omega) hbits)
        fun _ t' ht' => ?_
      · rw [List.length_drop]
        omega
      · refine ⟨ht'.1, ?_, ht'.2.2.1, inHeap_trans hin ht'.2.2.2⟩
        rw [ht'.2.1, hfree, List.take_add_one, List.getElem?_eq_getElem hi, Option.toList_some,
          List.reverse_append, List.reverse_singleton, List.append_assoc, List.singleton_append]
    · obtain ⟨hbt, hfree, hbits, hin⟩ := ht
      rw [List.take_length] at hfree
      exact (wp_pure _ _ _).mpr ⟨rfl, ⟨hbt.map, hbt.nonzero⟩, hfree, hbits, hin⟩
  · have hal : isPtrAligned (vaddrOf h.heapStart start) MM_VIRT_PAGE_SIZE = true := by
      rw [isPtrAligned_iff, hstart, show MM_VIRT_PAGE_SIZE.toNat = 4096 from rfl]
      omega
    rw [hal, BitVec.lt_def, BitVec.le_def, hstart]
    simp only [Bool.true_eq_false, or_false]
    omega

end Calls

/-! ## 7. First fit -/

/-- The region `heap_load` computes. -/
def heapRegionOf (hhdm highestPage : U64) : HeapRegion :=
  { heapStart := alignPtrUp (hhdm + highestPage) MM_PAGE_2MB
    heapEnd := alignPtrUp (alignPtrUp (hhdm + highestPage) MM_PAGE_2MB + highestPage) MM_PAGE_2MB }

section Load

variable {kernelRegionEnd : Uptr} {s s' : PmmState} {region : HeapRegion} {heapMap : Bitmap}

/-- A call of `heap_load` that returns. -/
theorem heapLoad_run (hrun : heapLoad kernelRegionEnd s = .ok ((region, heapMap), s')) :
    region = heapRegionOf s.hhdm s.pmm.highestPage ∧ heapMap.Valid ∧
      heapMap.buffer.size = alignSizeUp (BitVec.ofNat 64 (heapPageCount region) / 8)
        MM_PHYS_PAGE_SIZE ∧
      ∃ m, s'.mem = heapMap.withBit (heapMap.withBit m 0 true)
        (BitVec.ofNat 64 (heapPageCount region) - 1).toNat true := by
  have hw : wp (heapLoad kernelRegionEnd) s fun r t => r = (region, heapMap) ∧ t = s' :=
    ⟨_, _, hrun, rfl, rfl⟩
  unfold heapLoad at hw
  rw [wp_bind, wp_get, wp_bind, wp_assertRelease, wp_bind] at hw
  obtain ⟨-, pa, s₁, -, hw⟩ := hw
  rw [wp_bind, wp_onMem, wp_makeSpan, wp_bind, wp_onMem] at hw
  obtain ⟨hspan, hw⟩ := hw
  generalize hsize : alignSizeUp _ _ = size at hw hspan
  have hvalid : Bitmap.Valid ⟨⟨hhdmP2v s.hhdm pa, size⟩⟩ := hspan
  rw [wp_bitmapInit hvalid, wp_bind, wp_onMem, wp_bitmapSet, wp_bind, wp_onMem, wp_bitmapSet,
    wp_pure] at hw
  obtain ⟨-, -, -, -, hreg, rfl⟩ := hw
  obtain ⟨rfl, rfl⟩ := Prod.mk.inj hreg
  exact ⟨rfl, hvalid, hsize.symm, _, rfl⟩

/-- **`heap_load` sets the bits of the guard pages.** -/
theorem heapLoad_guarded (hrun : heapLoad kernelRegionEnd s = .ok ((region, heapMap), s'))
    (kernelPageMap : PageMap) (vmm : VmmState) :
    HeapGuarded ⟨region, heapMap, kernelPageMap⟩ ⟨vmm, s'.mem, []⟩ := by
  obtain ⟨-, -, -, m, hmem⟩ := heapLoad_run hrun
  have hfirst : ∀ i, heapMap.bit (heapMap.withBit (heapMap.withBit m 0 true) i true) 0 = true := by
    intro i
    rw [Bitmap.bit_withBit, Bitmap.bit_withBit, if_pos rfl, ite_self]
  unfold HeapGuarded HeapPages.used
  rw [hmem]
  refine ⟨hfirst _, ?_⟩
  by_cases hzero : heapPageCount region = 0
  · rw [show heapPageCount region - 1 = 0 by omega]
    exact hfirst _
  · have hlt : heapPageCount region < 2 ^ 64 := BitVec.isLt _
    rw [Bitmap.bit_withBit, if_pos]
    rw [BitVec.toNat_sub_of_le, ofNat_toNat_lt hlt]
    · rfl
    · rw [BitVec.le_def, ofNat_toNat_lt hlt]
      exact Nat.one_le_iff_ne_zero.mpr hzero

/-- What `heap_load` leaves, where the direct map and the heap have their addresses. -/
theorem heapLoad_loaded (hrun : heapLoad kernelRegionEnd s = .ok ((region, heapMap), s'))
    (kernelPageMap : PageMap)
    (hupper : 2 ^ 64 - 4096 * 512 ^ kernelPageMap.level.num / 2 ≤ s.hhdm.toNat)
    (hfit : s.hhdm.toNat + 2 * s.pmm.highestPage.toNat + 2 ^ 22 ≤ 2 ^ 64) :
    HeapStatics.Loaded ⟨region, heapMap, kernelPageMap⟩ := by
  obtain ⟨rfl, hvalid, hsize, -⟩ := heapLoad_run hrun
  have htwo : MM_PAGE_2MB.toNat = 2097152 := rfl
  have hadd : (s.hhdm + s.pmm.highestPage).toNat = s.hhdm.toNat + s.pmm.highestPage.toNat := by
    rw [BitVec.toNat_add]
    omega
  have hpos : 0 < MM_PAGE_2MB.toNat := by omega
  obtain ⟨hlo, hhi, hmod⟩ := toNat_alignPtrUp (p := s.hhdm + s.pmm.highestPage) hpos (by omega)
  unfold heapRegionOf at hsize ⊢
  generalize alignPtrUp (s.hhdm + s.pmm.highestPage) MM_PAGE_2MB = a at *
  have hadd' : (a + s.pmm.highestPage).toNat = a.toNat + s.pmm.highestPage.toNat := by
    rw [BitVec.toNat_add]
    omega
  obtain ⟨hlo', hhi', hmod'⟩ := toNat_alignPtrUp (p := a + s.pmm.highestPage) hpos (by omega)
  generalize alignPtrUp (a + s.pmm.highestPage) MM_PAGE_2MB = b at *
  have horder : a.toNat ≤ b.toNat := by omega
  have hcount : heapPageCount ⟨a, b⟩ = (b.toNat - a.toNat) / 4096 := by
    unfold heapPageCount
    rw [BitVec.toNat_udiv, BitVec.toNat_sub_of_le (BitVec.le_def.mpr horder),
      show MM_VIRT_PAGE_SIZE.toNat = 4096 from rfl]
  have hb := b.isLt
  rw [htwo] at hmod hmod'
  refine ⟨show a.toNat % 4096 = 0 by omega,
    show 2 ^ 64 - 4096 * 512 ^ kernelPageMap.level.num / 2 ≤ a.toNat by omega, horder, hvalid, ?_⟩
  -- the region has whole bytes of bits
  show heapPageCount ⟨a, b⟩ ≤ 8 * heapMap.buffer.size.toNat
  have hbytes : (BitVec.ofNat 64 (heapPageCount ⟨a, b⟩) / 8).toNat = heapPageCount ⟨a, b⟩ / 8 := by
    rw [BitVec.toNat_udiv, ofNat_toNat_lt (show heapPageCount ⟨a, b⟩ < 2 ^ 64 from BitVec.isLt _)]
    rfl
  rw [hsize, toNat_alignSizeUp (by decide) (by rw [hbytes, toNat_MM_PHYS_PAGE_SIZE]; omega), hbytes,
    toNat_MM_PHYS_PAGE_SIZE]
  omega

end Load

/-- A heap of 512 pages, of which the guard pages have their bits. -/
def heapOf2MB : HeapStatics :=
  { heapStart := 0xFFFF900000000000
    heapEnd := 0xFFFF900000200000
    heapMap := { buffer := { data := 0x8000, size := 0x1000 } }
    kernelPageMap := zeroedMap }

def heapOf2MBState (free : List Uptr) : HeapPages :=
  { vmm := { mem := fun _ => 0, free }
    bits := fun a => if a = 0x8000 then 0b10000000 else if a = 0x803F then 1 else 0
    touched := [] }

theorem heapOf2MB_loaded : heapOf2MB.Loaded := by
  refine ⟨rfl, ?_, ?_, ⟨by decide, by decide⟩, ?_⟩
  · decide
  · decide
  · decide

theorem heapOf2MB_ok {free : List Uptr} (hfree : free.Sublist zeroedState.free) :
    ∃ own, HeapReady heapOf2MB own (heapOf2MBState free) := by
  have hempty : EmptyMap zeroedMap (heapOf2MBState free).vmm :=
    ⟨zeroedMap_empty.level, zeroedMap_empty.directory, fun i _ => load64_zero _,
      fun f hf => zeroedMap_empty.free f (hfree.subset hf), zeroedMap_empty.nodup.sublist hfree⟩
  refine ⟨_, isPageMap_empty hempty, fun f hf => ?_⟩
  have hin := hfree.subset hf
  simp only [zeroedState, List.mem_cons, List.not_mem_nil, or_false] at hin
  rcases hin with rfl | rfl | rfl | rfl | rfl | rfl | rfl | rfl | rfl
  all_goals decide

/-- One page fits behind the first guard page. -/
theorem heapOf2MB_fit (free : List Uptr) :
    FirstFit ((heapOf2MBState free).used heapOf2MB) (heapPageCount heapOf2MB.toHeapRegion) 1
      (some 1) := by
  refine ⟨fun i hi => ?_, fun t ht hroom => ?_⟩
  · obtain rfl : i = 0 := by omega
    exact ⟨by decide, by simp [HeapPages.used, Bitmap.bit, heapOf2MB, heapOf2MBState]⟩
  · obtain rfl : t = 0 := by omega
    have hfree := (hroom 0 (by decide)).2
    simp [HeapPages.used, Bitmap.bit, heapOf2MB, heapOf2MBState] at hfree

/-- Nine frames are enough for it. -/
theorem heapOf2MB_frames : ¬ RunsOut heapOf2MB (heapOf2MBState zeroedState.free) 1 := by
  intro hout
  obtain ⟨start, -, hshort⟩ := hout
  have hle : blockFrames heapOf2MB (heapOf2MBState zeroedState.free) start 1 ≤ 1 * 4 :=
    rangeFrames_le (by decide)
  have hlen : (heapOf2MBState zeroedState.free).vmm.free.length = 9 := rfl
  omega

section Claims

variable {h : HeapStatics} {own : Uptr → Option (Nat × Nat)} {s : HeapPages} {pageCount : Int}

theorem toNat_pageCount (hpos : 1 ≤ pageCount) (hint : pageCount < 2 ^ 31) :
    (BitVec.ofInt 64 pageCount).toNat = pageCount.toNat := by
  rw [BitVec.toNat_ofInt]
  omega

/-- **`liballoc_alloc` is first fit.** With frames for it a call gives the lowest block of clear
    bits, and the null pointer if there is none. It uses no bit outside of the heap and stays
    between the guard pages, and `liballoc_free` restores the bitmap. -/
theorem liballoc_firstFit (pages1gb : Bool) (hl : h.Loaded) (hs : HeapReady h own s)
    (hpos : 1 ≤ pageCount) (hint : pageCount < 2 ^ 31) (hframes : ¬ RunsOut h s pageCount.toNat) :
    (∀ kernelRegionEnd t region heapMap t',
      heapLoad kernelRegionEnd t = .ok ((region, heapMap), t') → ∀ kernelPageMap vmm,
        HeapGuarded ⟨region, heapMap, kernelPageMap⟩ ⟨vmm, t'.mem, []⟩) ∧
    wp (liballocAlloc pages1gb h pageCount) s fun p s' => InHeap h s s' ∧
      ∃ r, FirstFit (s.used h) (heapPageCount h.toHeapRegion) pageCount.toNat r ∧
        match r with
        | none => p = 0 ∧ s'.bits = s.bits
        | some start =>
            p = vaddrOf h.heapStart start ∧ p ≠ 0 ∧ BitsSet h s s' start pageCount.toNat true ∧
            (HeapGuarded h s → 0 < start ∧ start + pageCount.toNat < heapPageCount h.toHeapRegion) ∧
            wp (liballocFree h p pageCount) s' fun rc s'' => rc = 0 ∧ InHeap h s' s'' ∧
              ∀ i, s''.used h i = s.used h i := by
  refine ⟨fun _ _ _ _ _ hrun => heapLoad_guarded hrun, ?_⟩
  refine wp_of_ends (ends_mono (ends_liballocAlloc pages1gb hl hs (toNat_pageCount hpos hint)
    (by omega)) (fun p s' ha => ?_) fun e he => absurd he.2 hframes)
  cases ha with
  | full hfit hlooked => exact ⟨hlooked.touched, none, hfit, rfl, hlooked.bits⟩
  | @block _ start own' fr hfit hlen ht =>
      have hroom := hfit.1
      have hend := (hroom (pageCount.toNat - 1) (by omega)).1
      have hnum := mapRoot_num hs.map.root
      have hnull := (heapPage_block start 0 hl hnum (by omega)).nonzero
      rw [show vaddrOf (vaddrOf h.heapStart start) 0 = vaddrOf h.heapStart start from
        BitVec.add_zero _] at hnull
      refine ⟨ht.touched, some start, hfit, rfl, hnull, hlen ▸ ht.bits,
        fun hg => room_between hroom (by omega) hg.1 hg.2, ?_⟩
      refine wp_mono (wp_liballocFree hl (by omega) ht.mapped.backed (by omega) (by omega))
        fun rc s'' hf => ?_
      obtain ⟨hrc, -, -, hbits, hin⟩ := hf
      refine ⟨hrc, hin, fun i => ?_⟩
      unfold HeapPages.used
      rw [hbits i]
      by_cases hi : start ≤ i ∧ i < start + fr.length
      · rw [if_pos hi]
        have hclear := (hroom (i - start) (by omega)).2
        rw [show start + (i - start) = i by omega] at hclear
        exact hclear.symm
      · rw [if_neg hi, ht.bits i, if_neg hi]

/-- The first page of a heap of 2 MB is the one behind the guard page. -/
theorem liballoc_firstFit_one : wp (liballocAlloc true heapOf2MB 1)
    (heapOf2MBState zeroedState.free) fun p _ => p = 0xFFFF900000001000 := by
  obtain ⟨own, hok⟩ := heapOf2MB_ok (List.Sublist.refl _)
  have hcall := (liballoc_firstFit true heapOf2MB_loaded hok (show (1 : Int) ≤ 1 by decide)
    (by decide) heapOf2MB_frames).2
  refine wp_mono hcall fun p _ h => ?_
  obtain ⟨-, r, hfit, hr⟩ := h
  cases firstFit_unique hfit (heapOf2MB_fit _)
  exact hr.1

/-- The heap is as it was: bits, translations and frames, but for frames that are tables now. -/
structure Undone (h : HeapStatics) (s s' : HeapPages) : Prop where
  bits : ∀ i, s'.used h i = s.used h i
  translations : ∀ va : Uptr, h.heapStart ≤ va → va < h.heapEnd →
    resolve s'.vmm.mem h.kernelPageMap va = resolve s.vmm.mem h.kernelPageMap va
  frames : ∃ own' tables, s.vmm.free.Perm (tables ++ s'.vmm.free) ∧ ∀ f ∈ tables, ∃ key M, M ≠ 0 ∧
    Stage own' s'.vmm h.kernelPageMap.level.num h.kernelPageMap.directory key M f

/-- A call never panics, and if frames run out it returns the null pointer and has changed
    nothing. -/
def RollsBack (pages1gb : Bool) (h : HeapStatics) (s : HeapPages) (pageCount : Int) : Prop :=
  wp (liballocAlloc pages1gb h pageCount) s fun p s' =>
    RunsOut h s pageCount.toNat → p = 0 ∧ Undone h s s'

/-- **A call never rolls back**: `pmm_alloc` panics before it returns the null pointer. -/
theorem liballocRollback_exact (pages1gb : Bool) (hl : h.Loaded) (hs : HeapReady h own s)
    (hpos : 1 ≤ pageCount) (hint : pageCount < 2 ^ 31) :
    RollsBack pages1gb h s pageCount ↔ ¬ RunsOut h s pageCount.toNat := by
  have hends := ends_liballocAlloc pages1gb hl hs (toNat_pageCount hpos hint)
    (show 0 < pageCount.toNat by omega)
  constructor
  · intro hback hout
    obtain ⟨p, s', hrun, -⟩ := hback
    exact not_runsOut (ends_ok hends hrun) hout
  · intro hfits
    refine wp_of_ends (ends_mono hends (fun _ _ _ hout => absurd hout hfits) fun e he => ?_)
    exact absurd he.2 hfits

/-- Frames enough, and nothing to roll back. -/
theorem liballocRollback_exact_nine :
    RollsBack true heapOf2MB (heapOf2MBState zeroedState.free) 1 := by
  obtain ⟨own, hok⟩ := heapOf2MB_ok (List.Sublist.refl _)
  exact (liballocRollback_exact true heapOf2MB_loaded hok (show (1 : Int) ≤ 1 by decide)
    (by decide)).mpr heapOf2MB_frames

/-- Without a free frame a call for one page panics. -/
theorem liballocAlloc_panics : ¬ RollsBack true heapOf2MB (heapOf2MBState []) 1 := by
  have hstops : Stops (liballocAlloc true heapOf2MB 1) (heapOf2MBState []) noFrames := by
    rfl
  exact not_wp_of_stops hstops _

end Claims

end Slightx
