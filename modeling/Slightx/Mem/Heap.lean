/-
  File:      Slightx/Mem/Heap.lean
  Subject:   Allocations of any alignment over `malloc`, each with a header before it.

  Sources: kernel/mem/heap.c (`heap_block_hdr` and the allocator), klibc/mem/align.c.

  `malloc`, `realloc` and `free` are parameters. `HeapState.blocks` has the blocks they have handed
  out and not got back, and `Liballoc.Meets` is what C promises of them: a block lies in the heap
  region and apart from the others, and a call leaves the bytes of the blocks it does not give or
  take as they are. How large the blocks they hand out are is up to the callers here.
-/
import Slightx.Klibc.Bytes
import Mathlib.Logic.Function.Basic

namespace Slightx

open Lib Function

/-! ## 1. Headers -/

/-- `struct heap_block_hdr`. -/
structure HeapBlockHdr where
  base : Uptr
  size : Usize
  align : Usize
  offset : Usize
  deriving DecidableEq, Repr

def SIZEOF_HEAP_BLOCK_HDR : Usize := 32

/-- `alignof(max_align_t)` -/
def ALIGNOF_MAX_ALIGN : Usize := 16

def readHdr (m : Mem) (a : Uptr) : HeapBlockHdr where
  base := load64 m a.toNat
  size := load64 m (a.toNat + 8)
  align := load64 m (a.toNat + 16)
  offset := load64 m (a.toNat + 24)

def writeHdr (m : Mem) (a : Uptr) (hdr : HeapBlockHdr) : Mem :=
  store64 (store64 (store64 (store64 m a.toNat hdr.base) (a.toNat + 8) hdr.size)
    (a.toNat + 16) hdr.align) (a.toNat + 24) hdr.offset

/-- `heap_start` and `heap_end`. -/
structure HeapRegion where
  heapStart : Uptr
  heapEnd : Uptr

/-- `heap__hdr_for`: the address of the header, `none` for `NULL`. -/
def heapHdrFor (r : HeapRegion) (ptr : Uptr) : Prog Fault Mem (Option Uptr) := do
  if ptr = 0 then return none
  else if ptr < r.heapStart + SIZEOF_HEAP_BLOCK_HDR then return none
  else if r.heapEnd ≤ ptr then return none
  else
    let hdr := readHdr (← get) (ptr - SIZEOF_HEAP_BLOCK_HDR)
    if !isAlignmentValid hdr.align then return none
    else if hdr.align < ALIGNOF_MAX_ALIGN then return none
    else if hdr.align ≤ hdr.offset then return none
    else if hdr.size < SIZEOF_HEAP_BLOCK_HDR + hdr.align - 1 then return none
    else if hdr.base < r.heapStart then return none
    else if r.heapEnd ≤ hdr.base then return none
    else if r.heapEnd - hdr.base < hdr.size then return none
    else if hdr.base + SIZEOF_HEAP_BLOCK_HDR + hdr.offset ≠ ptr then return none
    else if !isPtrAligned ptr hdr.align then return none
    else if ptr - SIZEOF_HEAP_BLOCK_HDR = 0 then
      panic "[heap] invalid or corrupted chunk header for %x"
    else return some (ptr - SIZEOF_HEAP_BLOCK_HDR)

/-! ## 2. The allocator -/

/-- The memory, the blocks handed out, and what else the machine has. -/
structure HeapState (ω : Type) where
  mem : Mem
  /-- the size of the block at an address -/
  blocks : Uptr → Option Usize
  rest : ω

/-- `malloc`, `realloc` and `free`. -/
structure Liballoc (ω : Type) where
  malloc : Usize → Prog Fault (HeapState ω) Uptr
  realloc : Uptr → Usize → Prog Fault (HeapState ω) Uptr
  free : Uptr → Prog Fault (HeapState ω) Unit

section Allocator

variable {ω : Type}

def onBytes {α : Type} (x : Prog Fault Mem α) : Prog Fault (HeapState ω) α :=
  zoom HeapState.mem (fun s m => { s with mem := m }) x

variable (a : Liballoc ω) (r : HeapRegion)

def heapAllocateAligned (sz align : Usize) : Prog Fault (HeapState ω) Uptr := do
  if sz = 0 then return 0
  else if !isAlignmentValid align then return 0
  else
    let align := if align < ALIGNOF_MAX_ALIGN then ALIGNOF_MAX_ALIGN else align
    let totalsz := sz + SIZEOF_HEAP_BLOCK_HDR + (align - 1)
    let base ← a.malloc totalsz
    if base = 0 then return 0
    else
      let raw := base + SIZEOF_HEAP_BLOCK_HDR
      let ptr := alignPtrUp raw align
      let offset := ptr - raw
      onBytes (modify fun m =>
        writeHdr m (ptr - SIZEOF_HEAP_BLOCK_HDR) { base, size := totalsz, align, offset })
      return ptr

def heapAllocate (sz : Usize) : Prog Fault (HeapState ω) Uptr :=
  heapAllocateAligned a sz ALIGNOF_MAX_ALIGN

/-- How many bytes `heap_reallocate` copies. -/
def reallocCopy (oldHdr : HeapBlockHdr) (oldsz newsz : Usize) : Usize :=
  let oldPayload := oldHdr.size - SIZEOF_HEAP_BLOCK_HDR - oldHdr.offset
  let copy := if oldsz < newsz then oldsz else newsz
  if oldPayload < copy then oldPayload else copy

def heapReallocate (ptr : Uptr) (oldsz newsz : Usize) : Prog Fault (HeapState ω) Uptr := do
  if ptr = 0 then heapAllocate a newsz
  else
    match ← onBytes (heapHdrFor r ptr) with
    -- `old_hdr->base`, or `old_hdr->align`, of a `NULL` pointer
    | none => throw (.pageFault (if newsz = 0 then 0 else 16))
    | some hdr =>
        let oldHdr := readHdr (← get).mem hdr
        if newsz = 0 then
          a.free oldHdr.base
          return 0
        else
          let align := oldHdr.align
          let newTotalsz := newsz + SIZEOF_HEAP_BLOCK_HDR + (align - 1)
          let newBase ← a.realloc oldHdr.base newTotalsz
          if newBase = 0 then return 0
          else
            let newRaw := newBase + SIZEOF_HEAP_BLOCK_HDR
            let newPtr := alignPtrUp newRaw align
            let newOff := newPtr - newRaw
            let oldPayload := newBase + SIZEOF_HEAP_BLOCK_HDR + oldHdr.offset
            let _ ← (if newPtr ≠ oldPayload then
                onBytes (memmove newPtr oldPayload (reallocCopy oldHdr oldsz newsz))
              else pure newPtr)
            onBytes (modify fun m => writeHdr m (newPtr - SIZEOF_HEAP_BLOCK_HDR)
              { base := newBase, size := newTotalsz, align, offset := newOff })
            return newPtr

def heapDeallocate (ptr : Uptr) : Prog Fault (HeapState ω) Unit := do
  if ptr = 0 then return ()
  else
    match ← onBytes (heapHdrFor r ptr) with
    | none => throw (.pageFault 0)
    | some hdr => a.free (readHdr (← get).mem hdr).base

end Allocator

/-! ## 3. What C promises -/

/-- The address `x` is in the block of `n` bytes at `b`. -/
def InBlock (b : Uptr) (n : Usize) (x : Nat) : Prop := b.toNat ≤ x ∧ x < b.toNat + n.toNat

/-- The bytes of the blocks are the same. -/
def BlocksKept (blocks : Uptr → Option Usize) (m m' : Mem) : Prop :=
  ∀ b n, blocks b = some n → ∀ x, InBlock b n x → m' x = m x

/-- A block of `n` bytes at `p`, in the region and apart from the others. -/
structure Fits (r : HeapRegion) (blocks : Uptr → Option Usize) (p : Uptr) (n : Usize) : Prop where
  null : p ≠ 0
  fresh : blocks p = none
  above : r.heapStart.toNat ≤ p.toNat
  below : p.toNat + n.toNat ≤ r.heapEnd.toNat
  apart : ∀ b k, blocks b = some k →
    p.toNat + n.toNat ≤ b.toNat ∨ b.toNat + k.toNat ≤ p.toNat

/-- **The contracts of `malloc`, `realloc` and `free`.** A `realloc` to size 0 may also take the
    block back. -/
structure Liballoc.Meets {ω : Type} (a : Liballoc ω) (r : HeapRegion) : Prop where
  malloc : ∀ n s, wp (a.malloc n) s fun p t => BlocksKept s.blocks s.mem t.mem ∧
    (p = 0 ∧ t.blocks = s.blocks ∨ Fits r s.blocks p n ∧ t.blocks = update s.blocks p (some n))
  realloc : ∀ b k n s, s.blocks b = some k → wp (a.realloc b n) s fun p t =>
    BlocksKept (update s.blocks b none) s.mem t.mem ∧
    (p = 0 ∧ (t.blocks = s.blocks ∧ BlocksKept s.blocks s.mem t.mem ∨
        n = 0 ∧ t.blocks = update s.blocks b none) ∨
      Fits r (update s.blocks b none) p n ∧
        t.blocks = update (update s.blocks b none) p (some n) ∧
        ∀ i, i < min k.toNat n.toNat → t.mem (p.toNat + i) = s.mem (b.toNat + i))
  free : ∀ b k s, s.blocks b = some k → wp (a.free b) s fun _ t =>
    BlocksKept (update s.blocks b none) s.mem t.mem ∧ t.blocks = update s.blocks b none

/-! ## 4. Headers in memory -/

section Headers

variable {m m' : Mem} {p : Uptr} {hdr : HeapBlockHdr}

@[simp] theorem readHdr_writeHdr (m : Mem) (p : Uptr) (hdr : HeapBlockHdr) :
    readHdr (writeHdr m p hdr) p = hdr := by
  unfold readHdr writeHdr
  rw [load64_store64_ne _ _ (by omega), load64_store64_ne _ _ (by omega),
    load64_store64_ne _ _ (by omega), load64_store64_same, load64_store64_ne _ _ (by omega),
    load64_store64_ne _ _ (by omega), load64_store64_same, load64_store64_ne _ _ (by omega),
    load64_store64_same, load64_store64_same]

/-- A header is 32 bytes. -/
theorem readHdr_congr (h : ∀ k, k < 32 → m' (p.toNat + k) = m (p.toNat + k)) :
    readHdr m' p = readHdr m p := by
  have hword : ∀ o, o + 8 ≤ 32 → load64 m' (p.toNat + o) = load64 m (p.toNat + o) := by
    intro o ho
    refine load64_congr fun k hk => ?_
    rw [Nat.add_assoc]
    exact h (o + k) (by omega)
  have hbase : load64 m' p.toNat = load64 m p.toNat := hword 0 (by decide)
  unfold readHdr
  rw [hbase, hword 8 (by decide), hword 16 (by decide), hword 24 (by decide)]

theorem writeHdr_out {x : Nat} (h : ¬ (p.toNat ≤ x ∧ x < p.toNat + 32)) :
    writeHdr m p hdr x = m x := by
  unfold writeHdr store64
  rw [if_neg (by omega), if_neg (by omega), if_neg (by omega), if_neg (by omega)]

/-- The rounded pointer, where it is still an address. -/
theorem toNat_alignPtrUp {align : Usize} (ha : 0 < align.toNat)
    (h : p.toNat + (align.toNat - 1) < 2 ^ 64) :
    p.toNat ≤ (alignPtrUp p align).toNat ∧
      (alignPtrUp p align).toNat ≤ p.toNat + (align.toNat - 1) ∧
      (alignPtrUp p align).toNat % align.toNat = 0 := by
  have hlt := gap_lt p.toNat ha
  have hp : (alignPtrUp p align).toNat = p.toNat + gap p.toNat align.toNat := by
    rw [toNat_alignPtrUp_gap ha, Nat.mod_eq_of_lt (by omega)]
  rw [hp]
  exact ⟨by omega, by omega, Nat.mod_eq_zero_of_dvd (dvd_add_gap _ ha)⟩

end Headers

/-! ## 5. The tests of a header -/

/-- What `heap__hdr_for` tests, passed. -/
structure HdrFits (r : HeapRegion) (m : Mem) (ptr : Uptr) : Prop where
  null : ptr ≠ 0
  low : ¬ ptr < r.heapStart + SIZEOF_HEAP_BLOCK_HDR
  high : ¬ r.heapEnd ≤ ptr
  valid : isAlignmentValid (readHdr m (ptr - SIZEOF_HEAP_BLOCK_HDR)).align = true
  least : ¬ (readHdr m (ptr - SIZEOF_HEAP_BLOCK_HDR)).align < ALIGNOF_MAX_ALIGN
  offset : ¬ (readHdr m (ptr - SIZEOF_HEAP_BLOCK_HDR)).align
    ≤ (readHdr m (ptr - SIZEOF_HEAP_BLOCK_HDR)).offset
  size : ¬ (readHdr m (ptr - SIZEOF_HEAP_BLOCK_HDR)).size
    < SIZEOF_HEAP_BLOCK_HDR + (readHdr m (ptr - SIZEOF_HEAP_BLOCK_HDR)).align - 1
  base_low : ¬ (readHdr m (ptr - SIZEOF_HEAP_BLOCK_HDR)).base < r.heapStart
  base_high : ¬ r.heapEnd ≤ (readHdr m (ptr - SIZEOF_HEAP_BLOCK_HDR)).base
  inside : ¬ r.heapEnd - (readHdr m (ptr - SIZEOF_HEAP_BLOCK_HDR)).base
    < (readHdr m (ptr - SIZEOF_HEAP_BLOCK_HDR)).size
  place : (readHdr m (ptr - SIZEOF_HEAP_BLOCK_HDR)).base + SIZEOF_HEAP_BLOCK_HDR
    + (readHdr m (ptr - SIZEOF_HEAP_BLOCK_HDR)).offset = ptr
  aligned : isPtrAligned ptr (readHdr m (ptr - SIZEOF_HEAP_BLOCK_HDR)).align = true
  hdr_null : ptr - SIZEOF_HEAP_BLOCK_HDR ≠ 0

section Tests

variable {r : HeapRegion} {m : Mem} {ptr : Uptr}

/-- **A header that passes the tests is found.** -/
theorem wp_heapHdrFor (h : HdrFits r m ptr) (Q : Option Uptr → Mem → Prop) :
    wp (heapHdrFor r ptr) m Q ↔ Q (some (ptr - SIZEOF_HEAP_BLOCK_HDR)) m := by
  unfold heapHdrFor
  rw [if_neg h.null, if_neg h.low, if_neg h.high, wp_bind, wp_get]
  dsimp only
  rw [if_neg (by rw [h.valid]; decide), if_neg h.least, if_neg h.offset, if_neg h.size,
    if_neg h.base_low, if_neg h.base_high, if_neg h.inside, if_neg (not_not_intro h.place),
    if_neg (by rw [h.aligned]; decide), if_neg h.hdr_null, wp_pure]

/-- A test that ends in `return NULL`. -/
theorem wp_test {c : Prop} [Decidable c] {x : Prog Fault Mem (Option Uptr)}
    {Q : Option Uptr → Mem → Prop} (hQ : ¬ Q none m) :
    wp (if c then pure none else x) m Q ↔ ¬ c ∧ wp x m Q := by
  by_cases hc : c
  · rw [if_pos hc, wp_pure]
    exact ⟨fun h => absurd h hQ, fun h => absurd hc h.1⟩
  · rw [if_neg hc]
    exact ⟨fun h => ⟨hc, h⟩, fun h => h.2⟩

/-- **No other header is found.** -/
theorem hdrFits_of_some (h : wp (heapHdrFor r ptr) m fun hdr _ => hdr ≠ none) :
    HdrFits r m ptr := by
  have hno : ¬ (none : Option Uptr) ≠ none := fun h => h rfl
  unfold heapHdrFor at h
  obtain ⟨null, h⟩ := (wp_test hno).mp h
  obtain ⟨low, h⟩ := (wp_test hno).mp h
  obtain ⟨high, h⟩ := (wp_test hno).mp h
  rw [wp_bind, wp_get] at h
  obtain ⟨valid, h⟩ := (wp_test hno).mp h
  obtain ⟨least, h⟩ := (wp_test hno).mp h
  obtain ⟨offset, h⟩ := (wp_test hno).mp h
  obtain ⟨size, h⟩ := (wp_test hno).mp h
  obtain ⟨base_low, h⟩ := (wp_test hno).mp h
  obtain ⟨base_high, h⟩ := (wp_test hno).mp h
  obtain ⟨inside, h⟩ := (wp_test hno).mp h
  obtain ⟨place, h⟩ := (wp_test hno).mp h
  obtain ⟨aligned, h⟩ := (wp_test hno).mp h
  refine ⟨null, low, high, by simpa using valid, least, offset, size, base_low, base_high, inside,
    Classical.not_not.mp place, by simpa using aligned, fun hdr_null => ?_⟩
  rw [if_pos hdr_null, wp_panic] at h
  exact h

/-- A valid alignment is at most the highest power of two. -/
theorem le_of_isAlignmentValid {align : Usize} (h : isAlignmentValid align = true) :
    align.toNat ≤ 2 ^ 63 := by
  refine Nat.le_of_not_lt fun hlt => ?_
  have hb := align.isLt
  have hand : align &&& (align - 1) = 0 := by
    unfold isAlignmentValid at h
    exact eq_of_beq h
  have hone : (1 : Usize).toNat = 1 := rfl
  have hsub : (align - 1).toNat = align.toNat - 1 := by
    rw [BitVec.toNat_sub_of_le (by rw [BitVec.le_def, hone]; omega), hone]
  -- bit 63 is set in the alignment and in its predecessor
  have hbit : ∀ x : Usize, 2 ^ 63 ≤ x.toNat → x.getLsbD 63 = true := by
    intro x hx
    have hlt := x.isLt
    show x.toNat.testBit 63 = true
    rw [Nat.testBit_eq_decide_div_mod_eq]
    have hdiv : x.toNat / 2 ^ 63 = 1 := by omega
    rw [hdiv]
    rfl
  have hset : (align &&& (align - 1)).getLsbD 63 = true := by
    rw [BitVec.getLsbD_and, hbit _ (by omega), hbit _ (by omega)]
    rfl
  rw [hand] at hset
  exact absurd hset (by decide)

/-- The fields of a header, as numbers. -/
structure HdrNumbers (r : HeapRegion) (hdr : HeapBlockHdr) (ptr : Uptr) : Prop where
  least : 16 ≤ hdr.align.toNat
  most : hdr.align.toNat ≤ 2 ^ 63
  offset : hdr.offset.toNat < hdr.align.toNat
  size : 32 + (hdr.align.toNat - 1) ≤ hdr.size.toNat
  above : r.heapStart.toNat ≤ hdr.base.toNat
  below : hdr.base.toNat + hdr.size.toNat ≤ r.heapEnd.toNat
  place : ptr.toNat = hdr.base.toNat + 32 + hdr.offset.toNat
  aligned : ptr.toNat % hdr.align.toNat = 0

theorem toNat_hdr_size {align : Usize} (h : 16 ≤ align.toNat) (h' : align.toNat ≤ 2 ^ 63) :
    (SIZEOF_HEAP_BLOCK_HDR + align - 1).toNat = 32 + (align.toNat - 1) := by
  have h32 : SIZEOF_HEAP_BLOCK_HDR.toNat = 32 := rfl
  have hone : (1 : Usize).toNat = 1 := rfl
  have hadd : (SIZEOF_HEAP_BLOCK_HDR + align).toNat = 32 + align.toNat := by
    rw [BitVec.toNat_add, h32, Nat.mod_eq_of_lt (by omega)]
  rw [BitVec.toNat_sub_of_le (by rw [BitVec.le_def, hadd, hone]; omega), hadd, hone]
  omega

theorem hdrNumbers_of_fits (h : HdrFits r m ptr) :
    HdrNumbers r (readHdr m (ptr - SIZEOF_HEAP_BLOCK_HDR)) ptr := by
  have hmost := le_of_isAlignmentValid h.valid
  have hleast : 16 ≤ (readHdr m (ptr - SIZEOF_HEAP_BLOCK_HDR)).align.toNat := Nat.not_lt.mp h.least
  have hoff := Nat.not_le.mp h.offset
  have hsize := Nat.not_lt.mp h.size
  have hlow := Nat.not_lt.mp h.base_low
  have hhigh := Nat.not_le.mp h.base_high
  have hin := Nat.not_lt.mp h.inside
  have hplace := congrArg BitVec.toNat h.place
  have hal := (beq_iff_eq.mp h.aligned : ptr % _ = 0)
  generalize readHdr m (ptr - SIZEOF_HEAP_BLOCK_HDR) = hdr at *
  rw [toNat_hdr_size hleast hmost] at hsize
  rw [BitVec.toNat_sub_of_le (Nat.le_of_lt hhigh)] at hin
  have h32 : SIZEOF_HEAP_BLOCK_HDR.toNat = 32 := rfl
  have hstop := r.heapEnd.isLt
  have hsum : hdr.base.toNat + 32 + hdr.offset.toNat < 2 ^ 64 := by omega
  rw [BitVec.toNat_add, BitVec.toNat_add, h32, Nat.mod_eq_of_lt (a := _ + 32) (by omega),
    Nat.mod_eq_of_lt hsum] at hplace
  refine ⟨hleast, hmost, hoff, hsize, hlow, by omega, hplace.symm, ?_⟩
  rw [← BitVec.toNat_umod, hal]
  rfl

/-- **The chain of tests accepts** a header whose numbers are right. -/
theorem hdrFits_of_numbers
    (hv : isAlignmentValid (readHdr m (ptr - SIZEOF_HEAP_BLOCK_HDR)).align = true)
    (h : HdrNumbers r (readHdr m (ptr - SIZEOF_HEAP_BLOCK_HDR)) ptr)
    (hb : (readHdr m (ptr - SIZEOF_HEAP_BLOCK_HDR)).base ≠ 0)
    (hroom : ptr.toNat < r.heapEnd.toNat) : HdrFits r m ptr := by
  obtain ⟨hleast, hmost, hoff, hsize, hlow, hhigh, hplace, hal⟩ := h
  have hpos : (readHdr m (ptr - SIZEOF_HEAP_BLOCK_HDR)).base.toNat ≠ 0 :=
    fun h => hb (BitVec.eq_of_toNat_eq h)
  have h32 : SIZEOF_HEAP_BLOCK_HDR.toNat = 32 := rfl
  have hstop := r.heapEnd.isLt
  generalize hh : readHdr m (ptr - SIZEOF_HEAP_BLOCK_HDR) = hdr at *
  have hstart : (r.heapStart + SIZEOF_HEAP_BLOCK_HDR).toNat = r.heapStart.toNat + 32 := by
    rw [BitVec.toNat_add, h32, Nat.mod_eq_of_lt (by omega)]
  have hsub : (ptr - SIZEOF_HEAP_BLOCK_HDR).toNat = ptr.toNat - 32 := by
    rw [BitVec.toNat_sub_of_le (by rw [BitVec.le_def, h32]; omega), h32]
  have hplace' : hdr.base + SIZEOF_HEAP_BLOCK_HDR + hdr.offset = ptr := by
    refine BitVec.eq_of_toNat_eq ?_
    rw [BitVec.toNat_add, BitVec.toNat_add, h32, Nat.mod_eq_of_lt (a := _ + 32) (by omega),
      Nat.mod_eq_of_lt (by omega), hplace]
  have hbase : hdr.base ≤ r.heapEnd := by
    rw [BitVec.le_def]
    omega
  refine ⟨?_, ?_, ?_, ?_, ?_, ?_, ?_, ?_, ?_, ?_, ?_, ?_, ?_⟩
  · rintro rfl
    have h0 : (0 : Uptr).toNat = 0 := rfl
    omega
  · rw [BitVec.lt_def, hstart]
    omega
  · rw [BitVec.le_def]
    omega
  · rw [hh]
    exact hv
  · rw [hh, BitVec.lt_def]
    exact Nat.not_lt.mpr hleast
  · rw [hh, BitVec.le_def]
    omega
  · rw [hh, BitVec.lt_def, toNat_hdr_size hleast hmost]
    omega
  · rw [hh, BitVec.lt_def]
    omega
  · rw [hh, BitVec.le_def]
    omega
  · rw [hh, BitVec.lt_def, BitVec.toNat_sub_of_le hbase]
    omega
  · rw [hh]
    exact hplace'
  · rw [hh]
    refine beq_iff_eq.mpr (BitVec.eq_of_toNat_eq ?_)
    rw [BitVec.toNat_umod, hal]
    rfl
  · intro h0
    rw [h0] at hsub
    have h0 : (0 : Uptr).toNat = 0 := rfl
    omega

end Tests

/-! ## 6. Sizes -/

/-- The alignment `heap_allocate_aligned` works with. -/
def heapAlign (align : Usize) : Usize :=
  if align < ALIGNOF_MAX_ALIGN then ALIGNOF_MAX_ALIGN else align

/-- The size it asks `malloc` for. -/
def heapTotal (sz align : Usize) : Usize := sz + SIZEOF_HEAP_BLOCK_HDR + (align - 1)

/-- The sum of size, header and slack is a size. -/
def NoWrap (sz align : Usize) : Prop := sz.toNat + 32 + (align.toNat - 1) < 2 ^ 64

instance (sz align : Usize) : Decidable (NoWrap sz align) := inferInstanceAs (Decidable (_ < _))

/-- Where the pointer is in its block: behind the header, aligned, with room for `sz` bytes. -/
structure Placed (base total sz align ptr : U64) : Prop where
  low : base.toNat + 32 ≤ ptr.toNat
  high : ptr.toNat < base.toNat + 32 + align.toNat
  aligned : ptr.toNat % align.toNat = 0
  room : ptr.toNat + sz.toNat ≤ base.toNat + total.toNat

section Sizes

variable {sz align base total ptr : U64}

theorem heapAlign_valid (h : isAlignmentValid align = true) :
    isAlignmentValid (heapAlign align) = true := by
  unfold heapAlign
  split
  · rfl
  · exact h

theorem heapAlign_least (align : Usize) : 16 ≤ (heapAlign align).toNat := by
  unfold heapAlign
  split
  · exact Nat.le_refl _
  · rename_i h
    exact Nat.not_lt.mp h

theorem toNat_heapTotal (ha : 0 < align.toNat) :
    (heapTotal sz align).toNat = (sz.toNat + 32 + (align.toNat - 1)) % 2 ^ 64 := by
  have h32 : SIZEOF_HEAP_BLOCK_HDR.toNat = 32 := rfl
  have hone : (1 : Usize).toNat = 1 := rfl
  have hsub : (align - 1).toNat = align.toNat - 1 := by
    rw [BitVec.toNat_sub_of_le (by rw [BitVec.le_def, hone]; omega), hone]
  unfold heapTotal
  rw [BitVec.toNat_add, BitVec.toNat_add, h32, hsub, Nat.mod_add_mod]

theorem toNat_heapTotal_noWrap (ha : 0 < align.toNat) (h : NoWrap sz align) :
    (heapTotal sz align).toNat = sz.toNat + 32 + (align.toNat - 1) := by
  rw [toNat_heapTotal ha, Nat.mod_eq_of_lt h]

/-- A sum that wraps is smaller than the size. -/
theorem heapTotal_wrap (ha : 0 < align.toNat) (hmost : align.toNat ≤ 2 ^ 63)
    (h : ¬ NoWrap sz align) : (heapTotal sz align).toNat < sz.toNat := by
  have hsz := sz.isLt
  have hle : 2 ^ 64 ≤ sz.toNat + 32 + (align.toNat - 1) := Nat.not_lt.mp h
  rw [toNat_heapTotal ha]
  omega

/-- **The rounded pointer is in its place**, if the block has the whole sum. -/
theorem placed_alignPtrUp (ha : 0 < align.toNat)
    (htotal : total.toNat = sz.toNat + 32 + (align.toNat - 1))
    (hb : base.toNat + total.toNat < 2 ^ 64) :
    Placed base total sz align (alignPtrUp (base + SIZEOF_HEAP_BLOCK_HDR) align) := by
  have h32 : SIZEOF_HEAP_BLOCK_HDR.toNat = 32 := rfl
  have hraw : (base + SIZEOF_HEAP_BLOCK_HDR).toNat = base.toNat + 32 := by
    rw [BitVec.toNat_add, h32, Nat.mod_eq_of_lt (by omega)]
  obtain ⟨hlow, hhigh, hal⟩ :=
    toNat_alignPtrUp (p := base + SIZEOF_HEAP_BLOCK_HDR) ha (by rw [hraw]; omega)
  rw [hraw] at hlow hhigh
  exact ⟨hlow, by omega, hal, by omega⟩

/-- The copy is no longer than either size, nor than what follows the pointer in the old block. -/
theorem reallocCopy_le {hdr : HeapBlockHdr} (oldsz newsz : Usize)
    (hsize : 32 + hdr.offset.toNat ≤ hdr.size.toNat) :
    (reallocCopy hdr oldsz newsz).toNat =
      min (min oldsz.toNat newsz.toNat) (hdr.size.toNat - 32 - hdr.offset.toNat) := by
  have h32 : SIZEOF_HEAP_BLOCK_HDR.toNat = 32 := rfl
  have hsub : (hdr.size - SIZEOF_HEAP_BLOCK_HDR).toNat = hdr.size.toNat - 32 := by
    rw [BitVec.toNat_sub_of_le (by rw [BitVec.le_def, h32]; omega), h32]
  have hpay : (hdr.size - SIZEOF_HEAP_BLOCK_HDR - hdr.offset).toNat
      = hdr.size.toNat - 32 - hdr.offset.toNat := by
    rw [BitVec.toNat_sub_of_le (by rw [BitVec.le_def, hsub]; omega), hsub]
  have hmin : (if oldsz < newsz then oldsz else newsz).toNat = min oldsz.toNat newsz.toNat := by
    split
    · rename_i h
      exact (Nat.min_eq_left (Nat.le_of_lt h)).symm
    · rename_i h
      exact (Nat.min_eq_right (Nat.not_lt.mp h)).symm
  unfold reallocCopy
  dsimp only
  generalize (if oldsz < newsz then oldsz else newsz) = copy at hmin ⊢
  split
  · rename_i h
    rw [BitVec.lt_def, hpay, hmin] at h
    rw [hpay]
    omega
  · rename_i h
    rw [BitVec.lt_def, hpay, hmin] at h
    rw [hmin]
    omega

end Sizes

/-! ## 7. What the calls do -/

section Calls

variable {ω : Type} {a : Liballoc ω} {r : HeapRegion} {s t : HeapState ω}

/-- The pointer for a payload of the block at `base`, and its header. -/
def heapPtr (base align : U64) : Uptr := alignPtrUp (base + SIZEOF_HEAP_BLOCK_HDR) align

def heapHdr (base total align : U64) : HeapBlockHdr :=
  { base, size := total, align,
    offset := heapPtr base align - (base + SIZEOF_HEAP_BLOCK_HDR) }

/-- The state with the header of a new payload. -/
def HeapState.setHdr (s : HeapState ω) (base total align : U64) : HeapState ω :=
  { s with
    mem := writeHdr s.mem (heapPtr base align - SIZEOF_HEAP_BLOCK_HDR) (heapHdr base total align) }

theorem wp_onBytes {α : Type} (x : Prog Fault Mem α) (Q : α → HeapState ω → Prop) :
    wp (onBytes x) s Q ↔ wp x s.mem fun v m => Q v { s with mem := m } :=
  wp_zoom _ _ x s Q

/-- `heap_allocate_aligned`, by what `malloc` answers. -/
theorem wp_heapAllocateAligned {sz align base : U64} (hsz : sz ≠ 0)
    (hv : isAlignmentValid align = true)
    (hm : a.malloc (heapTotal sz (heapAlign align)) s = .ok (base, t))
    (Q : Uptr → HeapState ω → Prop) :
    wp (heapAllocateAligned a sz align) s Q ↔
      if base = 0 then Q 0 t
      else Q (heapPtr base (heapAlign align))
        (t.setHdr base (heapTotal sz (heapAlign align)) (heapAlign align)) := by
  unfold heapAllocateAligned
  rw [if_neg hsz, if_neg (by rw [hv]; decide), wp_bind]
  refine (wp_of_eq hm).trans ?_
  split
  · exact wp_pure _ _ _
  · rw [wp_bind, wp_onBytes, wp_modify, wp_pure]
    rfl

/-- `heap_reallocate`, by what `realloc` answers. -/
theorem wp_heapReallocate {ptr oldsz newsz base : U64} {hdr : HeapBlockHdr}
    (hfits : HdrFits r s.mem ptr) (hhdr : readHdr s.mem (ptr - SIZEOF_HEAP_BLOCK_HDR) = hdr)
    (hnew : newsz ≠ 0) (hm : a.realloc hdr.base (heapTotal newsz hdr.align) s = .ok (base, t))
    (Q : Uptr → HeapState ω → Prop) :
    wp (heapReallocate a r ptr oldsz newsz) s Q ↔
      if base = 0 then Q 0 t
      else wp (if heapPtr base hdr.align ≠ base + SIZEOF_HEAP_BLOCK_HDR + hdr.offset then
          memmove (heapPtr base hdr.align) (base + SIZEOF_HEAP_BLOCK_HDR + hdr.offset)
            (reallocCopy hdr oldsz newsz)
        else pure (heapPtr base hdr.align)) t.mem fun _ m => Q (heapPtr base hdr.align)
          ({ t with mem := m }.setHdr base (heapTotal newsz hdr.align) hdr.align) := by
  unfold heapReallocate
  rw [if_neg hfits.null, wp_bind, wp_onBytes, wp_heapHdrFor hfits, wp_bind, wp_get]
  dsimp only
  rw [hhdr, if_neg hnew, wp_bind]
  refine (wp_of_eq hm).trans ?_
  split
  · exact wp_pure _ _ _
  · unfold heapPtr
    split
    · simp only [wp_bind, wp_onBytes, wp_modify, wp_pure]
      rfl
    · simp only [wp_bind, wp_onBytes, wp_modify, wp_pure]
      rfl

/-- A copy of nothing is made where the payload is in its place already. -/
theorem wp_relocate {p o : Uptr} (hp : p ≠ 0) (ho : o ≠ 0) (n : Usize) (m : Mem)
    (Q : Uptr → Mem → Prop) :
    wp (if p ≠ o then memmove p o n else pure p) m Q ↔ Q p (moved m p.toNat o.toNat n.toNat) := by
  split
  · exact wp_memmove hp ho n m Q
  · rename_i he
    rw [wp_pure, Classical.not_not.mp he, moved_self]

end Calls

/-! ## 8. What a caller gets -/

/-- A call for `sz` bytes: it returns `NULL` and nothing is handed out, or a pointer with a header
    before it and `sz` bytes behind it in the block that was. -/
def Delivers {ω : Type} (blocks kept : Uptr → Option Usize) (sz : Usize) (p : Uptr)
    (t : HeapState ω) : Prop :=
  p = 0 ∧ (∀ b n, t.blocks b = some n → blocks b = some n) ∨
  ∃ base total, t.blocks = update kept base (some total) ∧ sz.toNat ≤ total.toNat ∧
    base.toNat + 32 ≤ p.toNat ∧ p.toNat + sz.toNat ≤ base.toNat + total.toNat

/-- The same of `heap_reallocate`, whose copy goes from and to bytes of the new block. -/
def ReallocDelivers {ω : Type} (s : HeapState ω) (hdr : HeapBlockHdr) (oldsz newsz : Usize)
    (p : Uptr) (t : HeapState ω) : Prop :=
  p = 0 ∧ (∀ b n, t.blocks b = some n → s.blocks b = some n) ∨
  ∃ base total, t.blocks = update (update s.blocks hdr.base none) base (some total) ∧
    newsz.toNat ≤ total.toNat ∧ base.toNat + 32 ≤ p.toNat ∧
    p.toNat + newsz.toNat ≤ base.toNat + total.toNat ∧
    p.toNat + (reallocCopy hdr oldsz newsz).toNat ≤ base.toNat + total.toNat ∧
    32 + hdr.offset.toNat + (reallocCopy hdr oldsz newsz).toNat ≤ total.toNat

section Delivers

variable {ω : Type} {a : Liballoc ω} {r : HeapRegion} {s t : HeapState ω}
  {blocks kept : Uptr → Option Usize} {sz base total p : U64}

theorem delivers_of_realloc {hdr : HeapBlockHdr} {oldsz newsz : Usize}
    (h : ReallocDelivers s hdr oldsz newsz p t) :
    Delivers s.blocks (update s.blocks hdr.base none) newsz p t := by
  rcases h with h | ⟨base, total, ht, hsz, hlow, hroom, _⟩
  · exact Or.inl h
  · exact Or.inr ⟨base, total, ht, hsz, hlow, hroom⟩

/-- A block smaller than the size delivers nothing. -/
theorem not_delivers (ht : t.blocks = update kept base (some total)) (hfresh : kept base = none)
    (hblocks : blocks base ≠ some total) (hlt : total.toNat < sz.toNat) :
    ¬ Delivers blocks kept sz p t := by
  have hself : t.blocks base = some total := by
    rw [ht]
    exact update_self _ _ _
  rintro (⟨_, hnew⟩ | ⟨base', total', ht', hsz, _⟩)
  · exact hblocks (hnew _ _ hself)
  · rw [ht'] at hself
    by_cases hb : base = base'
    · subst hb
      rw [update_self] at hself
      obtain rfl := Option.some.inj hself
      omega
    · rw [update_of_ne hb, hfresh] at hself
      cases hself

/-- What `malloc` answers. -/
theorem malloc_answers (hc : a.Meets r) (n : Usize) (s : HeapState ω) :
    ∃ q t, a.malloc n s = .ok (q, t) ∧ BlocksKept s.blocks s.mem t.mem ∧
      (q = 0 ∧ t.blocks = s.blocks ∨ Fits r s.blocks q n ∧ t.blocks = update s.blocks q (some n)) :=
  hc.malloc n s

theorem placed_of_fits {align : Usize} (ha : 0 < align.toNat) (hf : Fits r kept base total)
    (htotal : total = heapTotal sz align) (hn : NoWrap sz align) :
    Placed base total sz align (heapPtr base align) := by
  have hstop := r.heapEnd.isLt
  have hbelow := hf.below
  refine placed_alignPtrUp ha ?_ (by omega)
  rw [htotal, toNat_heapTotal_noWrap ha hn]

/-- **`heap_allocate_aligned` delivers** where the sum does not wrap, and where it wraps only if
    `malloc` answers `NULL`. -/
theorem heapAllocateAligned_exact (hc : a.Meets r) (sz align : Usize) (s : HeapState ω) :
    wp (heapAllocateAligned a sz align) s (Delivers s.blocks s.blocks sz) ↔
      sz = 0 ∨ isAlignmentValid align = false ∨ NoWrap sz (heapAlign align) ∨
        wp (a.malloc (heapTotal sz (heapAlign align))) s fun q _ => q = 0 := by
  by_cases hsz : sz = 0
  · unfold heapAllocateAligned
    rw [if_pos hsz, wp_pure]
    exact ⟨fun _ => Or.inl hsz, fun _ => Or.inl ⟨rfl, fun _ _ h => h⟩⟩
  cases hv : isAlignmentValid align with
  | false =>
      unfold heapAllocateAligned
      rw [if_neg hsz, if_pos (by rw [hv]; rfl), wp_pure]
      exact ⟨fun _ => Or.inr (Or.inl rfl), fun _ => Or.inl ⟨rfl, fun _ _ h => h⟩⟩
  | true =>
      have hleast := heapAlign_least align
      have hmost := le_of_isAlignmentValid (heapAlign_valid hv)
      obtain ⟨q, t, hm, _, hans⟩ := malloc_answers hc (heapTotal sz (heapAlign align)) s
      rw [wp_heapAllocateAligned hsz hv hm, wp_of_eq hm]
      rcases hans with ⟨rfl, ht⟩ | ⟨hf, ht⟩
      · rw [if_pos rfl]
        refine ⟨fun _ => Or.inr (Or.inr (Or.inr rfl)), fun _ => Or.inl ⟨rfl, fun b n h => ?_⟩⟩
        rw [← ht]
        exact h
      · rw [if_neg hf.null]
        constructor
        · intro hd
          refine Or.inr (Or.inr (Or.inl (Classical.byContradiction fun hn => ?_)))
          refine not_delivers ht hf.fresh ?_ (heapTotal_wrap (by omega) hmost hn) hd
          rw [hf.fresh]
          exact fun h => nomatch h
        · rintro (h | h | hn | h)
          · exact absurd h hsz
          · cases h
          · have hp := placed_of_fits (by omega) hf rfl hn
            refine Or.inr ⟨q, _, ht, ?_, hp.low, hp.room⟩
            rw [toNat_heapTotal_noWrap (by omega) hn]
            omega
          · exact absurd h hf.null

/-- **`heap_reallocate` delivers** under the same condition, for a block with a valid header. -/
theorem heapReallocate_exact (hc : a.Meets r) {ptr : Uptr} {hdr : HeapBlockHdr}
    (hfits : HdrFits r s.mem ptr) (hhdr : readHdr s.mem (ptr - SIZEOF_HEAP_BLOCK_HDR) = hdr)
    (hlive : s.blocks hdr.base = some hdr.size) (oldsz newsz : Usize) :
    wp (heapReallocate a r ptr oldsz newsz) s (ReallocDelivers s hdr oldsz newsz) ↔
      newsz = 0 ∨ NoWrap newsz hdr.align ∨
        wp (a.realloc hdr.base (heapTotal newsz hdr.align)) s fun q _ => q = 0 := by
  have hnum := hdrNumbers_of_fits hfits
  rw [hhdr] at hnum
  have hleast := hnum.least
  have hoff := hnum.offset
  have hsize := hnum.size
  by_cases hnew : newsz = 0
  · refine ⟨fun _ => Or.inl hnew, fun _ => ?_⟩
    unfold heapReallocate
    rw [if_neg hfits.null, wp_bind, wp_onBytes, wp_heapHdrFor hfits, wp_bind, wp_get]
    dsimp only
    rw [hhdr, if_pos hnew, wp_bind]
    refine wp_mono (hc.free _ _ _ hlive) fun _ t ht => (wp_pure _ _ _).mpr (Or.inl ⟨rfl, ?_⟩)
    intro b n hb
    rw [ht.2] at hb
    by_cases he : b = hdr.base
    · rw [he, update_self] at hb
      cases hb
    · rw [update_of_ne he] at hb
      exact hb
  · obtain ⟨q, t, hm, _, hans⟩ := hc.realloc _ _ (heapTotal newsz hdr.align) s hlive
    rw [wp_heapReallocate hfits hhdr hnew hm, wp_of_eq hm]
    rcases hans with ⟨rfl, hans⟩ | ⟨hf, ht, _⟩
    · rw [if_pos rfl]
      refine ⟨fun _ => Or.inr (Or.inr rfl), fun _ => Or.inl ⟨rfl, fun b n hb => ?_⟩⟩
      rcases hans with ⟨ht, _⟩ | ⟨_, ht⟩
      · rw [← ht]
        exact hb
      · rw [ht] at hb
        by_cases he : b = hdr.base
        · rw [he, update_self] at hb
          cases hb
        · rw [update_of_ne he] at hb
          exact hb
    · rw [if_neg hf.null]
      constructor
      · intro hd
        obtain ⟨_, m, _, hd⟩ := hd
        refine Or.inr (Or.inl (Classical.byContradiction fun hn => ?_))
        have hwrap := heapTotal_wrap (by omega) hnum.most hn
        refine not_delivers ht hf.fresh ?_ hwrap (delivers_of_realloc hd)
        by_cases he : q = hdr.base
        · -- the sum that wrapped is smaller than any block with a header
          rw [he, hlive]
          intro hs
          have hle : 2 ^ 64 ≤ newsz.toNat + 32 + (hdr.align.toNat - 1) := Nat.not_lt.mp hn
          have htot : (heapTotal newsz hdr.align).toNat = _ := toNat_heapTotal (by omega)
          rw [← Option.some.inj hs] at htot
          have hb := newsz.isLt
          have hmost := hnum.most
          omega
        · have hfresh := hf.fresh
          rw [update_of_ne he] at hfresh
          rw [hfresh]
          exact fun h => nomatch h
      · rintro (h | hn | h)
        · exact absurd h hnew
        · have hp := placed_of_fits (by omega) hf rfl hn
          have htot := toNat_heapTotal_noWrap (by omega) hn
          have hstop := r.heapEnd.isLt
          have hbelow := hf.below
          have hpnull : heapPtr q hdr.align ≠ 0 := by
            intro h0
            have hlow := hp.low
            rw [h0] at hlow
            have hzero : (0 : Uptr).toNat = 0 := rfl
            omega
          have h32 : SIZEOF_HEAP_BLOCK_HDR.toNat = 32 := rfl
          have hold : (q + SIZEOF_HEAP_BLOCK_HDR + hdr.offset).toNat
              = q.toNat + 32 + hdr.offset.toNat := by
            rw [BitVec.toNat_add, BitVec.toNat_add, h32, Nat.mod_eq_of_lt (a := _ + 32) (by omega),
              Nat.mod_eq_of_lt (by omega)]
          have honull : q + SIZEOF_HEAP_BLOCK_HDR + hdr.offset ≠ 0 := by
            intro h0
            rw [h0] at hold
            have hzero : (0 : Uptr).toNat = 0 := rfl
            omega
          have hpay : 32 + hdr.offset.toNat ≤ hdr.size.toNat := by omega
          have hcopy := reallocCopy_le oldsz newsz hpay
          have hroom := hp.room
          refine (wp_relocate hpnull honull _ _ _).mpr
            (Or.inr ⟨q, _, ht, ?_, hp.low, hroom, ?_, ?_⟩)
          · omega
          · omega
          · omega
        · exact absurd h hf.null

end Delivers

/-- **No size of the heap may wrap.** With a `malloc` and a `realloc` that return `NULL` or a block
    of the size asked, the two functions deliver what is asked of them exactly where size, header
    and alignment slack add up to a size (or there is no block at all). -/
theorem heapSizes_exact {ω : Type} {a : Liballoc ω} {r : HeapRegion} (hc : a.Meets r) :
    (∀ (sz align : Usize) (s : HeapState ω),
      wp (heapAllocateAligned a sz align) s (Delivers s.blocks s.blocks sz) ↔
        sz = 0 ∨ isAlignmentValid align = false ∨ NoWrap sz (heapAlign align) ∨
          wp (a.malloc (heapTotal sz (heapAlign align))) s fun q _ => q = 0) ∧
    (∀ (oldsz newsz : Usize) (s : HeapState ω),
      wp (heapReallocate a r 0 oldsz newsz) s (Delivers s.blocks s.blocks newsz) ↔
        newsz = 0 ∨ NoWrap newsz ALIGNOF_MAX_ALIGN ∨
          wp (a.malloc (heapTotal newsz ALIGNOF_MAX_ALIGN)) s fun q _ => q = 0) ∧
    ∀ (ptr oldsz newsz : Usize) (hdr : HeapBlockHdr) (s : HeapState ω),
      wp (heapHdrFor r ptr) s.mem (fun h _ => h ≠ none) →
      readHdr s.mem (ptr - SIZEOF_HEAP_BLOCK_HDR) = hdr → s.blocks hdr.base = some hdr.size →
      (wp (heapReallocate a r ptr oldsz newsz) s (ReallocDelivers s hdr oldsz newsz) ↔
        newsz = 0 ∨ NoWrap newsz hdr.align ∨
          wp (a.realloc hdr.base (heapTotal newsz hdr.align)) s fun q _ => q = 0) := by
  refine ⟨heapAllocateAligned_exact hc, fun oldsz newsz s => ?_,
    fun ptr oldsz newsz hdr s hf hh hl =>
      heapReallocate_exact hc (hdrFits_of_some hf) hh hl oldsz newsz⟩
  have h := heapAllocateAligned_exact hc newsz ALIGNOF_MAX_ALIGN s
  have hvalid : isAlignmentValid ALIGNOF_MAX_ALIGN ≠ false := by decide
  unfold heapReallocate heapAllocate
  rw [if_pos rfl, h]
  exact ⟨fun h => h.imp_right fun h => h.resolve_left hvalid,
    fun h => h.imp_right fun h => Or.inr h⟩

/-! ## 9. A heap of one block -/

def oneRegion : HeapRegion := { heapStart := 0x1000, heapEnd := 0x100000 }

open Classical in
/-- A heap that hands out the block at 0x1000, as long as it does not exceed the region, and grows
    and shrinks it in place. -/
noncomputable def oneBlock : Liballoc Unit where
  malloc n := fun s =>
    if Fits oneRegion s.blocks 0x1000 n then
      .ok (0x1000, { s with blocks := update s.blocks 0x1000 (some n) })
    else .ok (0, s)
  realloc b n := fun s =>
    if Fits oneRegion (update s.blocks b none) b n then
      .ok (b, { s with blocks := update (update s.blocks b none) b (some n) })
    else .ok (0, s)
  free b := fun s => .ok ((), { s with blocks := update s.blocks b none })

theorem oneBlock_meets : oneBlock.Meets oneRegion := by
  refine ⟨fun n s => ?_, fun b k n s _ => ?_, fun b k s _ => ?_⟩
  · by_cases hf : Fits oneRegion s.blocks 0x1000 n
    · exact ⟨_, _, if_pos hf, fun _ _ _ _ _ => rfl, Or.inr ⟨hf, rfl⟩⟩
    · exact ⟨_, _, if_neg hf, fun _ _ _ _ _ => rfl, Or.inl ⟨rfl, rfl⟩⟩
  · by_cases hf : Fits oneRegion (update s.blocks b none) b n
    · exact ⟨_, _, if_pos hf, fun _ _ _ _ _ => rfl, Or.inr ⟨hf, rfl, fun _ _ => rfl⟩⟩
    · exact ⟨_, _, if_neg hf, fun _ _ _ _ _ => rfl,
        Or.inl ⟨rfl, Or.inl ⟨rfl, fun _ _ _ _ _ => rfl⟩⟩⟩
  · exact ⟨(), _, rfl, fun _ _ _ _ _ => rfl, rfl⟩

/-- No block is handed out, and the memory is zero. -/
def emptyHeap : HeapState Unit := { mem := fun _ => 0, blocks := fun _ => none, rest := () }

theorem oneBlock_malloc {n : Usize} (h : n.toNat ≤ 0xFF000) :
    oneBlock.malloc n emptyHeap =
      .ok (0x1000, { emptyHeap with blocks := update (fun _ => none) 0x1000 (some n) }) := by
  refine if_pos ⟨by decide, rfl, by decide, ?_, fun b k hb => nomatch hb⟩
  show 0x1000 + n.toNat ≤ 0x100000
  omega

/-- Ten bytes at a multiple of 64. -/
theorem heapSizes_exact_ten :
    wp (heapAllocateAligned oneBlock 10 64) emptyHeap
      (Delivers emptyHeap.blocks emptyHeap.blocks 10) :=
  ((heapSizes_exact oneBlock_meets).1 10 64 emptyHeap).mpr
    (Or.inr (Or.inr (Or.inl (by decide))))

/-- `SIZE_MAX` bytes are in a block of 46. -/
theorem heapAllocateAligned_wraps :
    wp (heapAllocateAligned oneBlock 0xFFFFFFFFFFFFFFFF 16) emptyHeap (fun p t =>
      p = 0x1020 ∧ t.blocks 0x1000 = some 46) ∧
    ¬ wp (heapAllocateAligned oneBlock 0xFFFFFFFFFFFFFFFF 16) emptyHeap
      (Delivers emptyHeap.blocks emptyHeap.blocks 0xFFFFFFFFFFFFFFFF) := by
  have hm := oneBlock_malloc (n := heapTotal 0xFFFFFFFFFFFFFFFF (heapAlign 16)) (by decide)
  have hsz : (0xFFFFFFFFFFFFFFFF : Usize) ≠ 0 := by decide
  have hcall := fun Q => wp_heapAllocateAligned hsz (by decide) hm Q
  refine ⟨(hcall _).mpr ⟨by decide, by decide⟩, fun h => ?_⟩
  have hd := (hcall _).mp h
  rw [if_neg (by decide)] at hd
  refine absurd hd (not_delivers rfl rfl ?_ (by decide))
  exact fun h => nomatch h

end Slightx
