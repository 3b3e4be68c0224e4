/-
  File:      Slightx/Mem/Pmm.lean
  Subject:   The physical page allocator, as kernel/mem/pmm.c computes it.

  Sources: kernel/mem/pmm.c, kernel/mem/hhdm.c.

  The allocator keeps one bit for each page of physical memory, in a buffer it carves out of the
  bootloader's memory map. The state of the model is what its functions read and write: the
  memory as the kernel addresses it, the memory map (the bitmap is taken out of an entry in
  place), the offset of the direct map, and the allocator's static instance. Every function runs
  under the instance's spinlock, so a call is one step and the lock is not modelled.
-/
import Slightx.Klibc.Bitmap

namespace Slightx

open Lib

def MM_PHYS_PAGE_SIZE : Usize := 0x1000

@[simp] theorem toNat_MM_PHYS_PAGE_SIZE : MM_PHYS_PAGE_SIZE.toNat = 4096 := rfl

/-! ## 1. The state -/

/-- The types of memory map entries the allocator tells apart. -/
inductive MemmapType where
  | usable
  | bootloaderReclaimable
  | executableAndModules
  | other
  deriving DecidableEq, Repr

structure MemmapEntry where
  base : Uptr
  length : U64
  type : MemmapType
  deriving DecidableEq, Repr

structure Pmm where
  highestPage : Uptr
  allocatedPages : Bitmap
  deriving DecidableEq, Repr

structure PmmState where
  /-- the memory the kernel reads and writes, by virtual address -/
  mem : Mem
  /-- the bootloader's answer to the memory map request -/
  memmap : List MemmapEntry
  /-- the bootloader's answer to the direct map request -/
  hhdm : U64
  pmm : Pmm

def hhdmP2v (hhdm : U64) (pa : Uptr) : Uptr := pa + hhdm

def hhdmV2p (hhdm : U64) (va : Uptr) : Uptr := va - hhdm

@[simp] theorem hhdmV2p_hhdmP2v (hhdm : U64) (pa : Uptr) : hhdmV2p hhdm (hhdmP2v hhdm pa) = pa :=
  BitVec.add_sub_cancel pa hhdm

/-- A klibc function run on the kernel's memory. -/
def onMem {α : Type} (x : Prog Fault Mem α) : Prog Fault PmmState α :=
  zoom PmmState.mem (fun s m => { s with mem := m }) x

@[simp] theorem wp_onMem {α : Type} (x : Prog Fault Mem α) (s : PmmState)
    (Q : α → PmmState → Prop) :
    wp (onMem x) s Q ↔ wp x s.mem (fun a m => Q a { s with mem := m }) :=
  wp_zoom _ _ _ _ _

/-! ## 2. Loading -/

/-- The static instance before `pmm_load`. -/
def pmmInit : Pmm := { highestPage := 0, allocatedPages := { buffer := spanNull } }

/-- One round of the loop of `pmm__find_highest_page`. -/
def highestPageStep (highestPage : Uptr) (entry : MemmapEntry) : Uptr :=
  match entry.type with
  | .usable | .bootloaderReclaimable | .executableAndModules =>
      let page := entry.base + entry.length
      if page > highestPage then page else highestPage
  | .other => highestPage

def pmmFindHighestPage : Prog Fault PmmState Unit :=
  modify fun s =>
    { s with pmm.highestPage := s.memmap.foldl highestPageStep s.pmm.highestPage }

def pmmGetPageCount (self : Pmm) : Usize :=
  alignPtrDown self.highestPage MM_PHYS_PAGE_SIZE / MM_PHYS_PAGE_SIZE

/-- The bytes `pmm__reserve_bitmap` asks for. -/
def pmmBitmapSize (self : Pmm) : Usize :=
  alignSizeUp (pmmGetPageCount self / 8) MM_PHYS_PAGE_SIZE

/-- The search of `pmm__reserve_bitmap`: the base of the first usable entry of `bitmapSize`
    bytes, and the map with that entry shortened in place. -/
def carveBitmap (bitmapSize : Usize) : List MemmapEntry → Option (Uptr × List MemmapEntry)
  | [] => none
  | entry :: rest =>
      if entry.type = .usable ∧ entry.length ≥ bitmapSize then
        some (entry.base, { entry with base := entry.base + bitmapSize
                                       length := entry.length - bitmapSize } :: rest)
      else
        (carveBitmap bitmapSize rest).map fun p => (p.1, entry :: p.2)

def pmmReserveBitmap : Prog Fault PmmState Unit := do
  let s ← get
  let bitmapSize := pmmBitmapSize s.pmm
  match carveBitmap bitmapSize s.memmap with
  | some (bitmapPaddr, memmap) => do
      set { s with memmap }
      let buffer ← onMem (makeSpan (hhdmP2v s.hhdm bitmapPaddr) bitmapSize)
      let bitmap ← onMem (bitmapInit buffer)
      modify fun s => { s with pmm.allocatedPages := bitmap }
  | none => panic "[pmm] Not enough memory."

/-- The test of the loop of `pmm__is_page_available`: the page lies inside the entry. -/
def MemmapEntry.coversPage (entry : MemmapEntry) (pageAddr : Uptr) : Bool :=
  pageAddr ≥ entry.base && pageAddr + MM_PHYS_PAGE_SIZE ≤ entry.base + entry.length

def pmmIsPageAvailable (memmap : List MemmapEntry) (pageAddr : Uptr) : Bool :=
  match memmap.find? (·.coversPage pageAddr) with
  | some entry => entry.type = .usable
  | none => false

def pmmScanBitmap : Prog Fault PmmState Unit := do
  let s ← get
  onMem (forUp (pmmGetPageCount s.pmm).toNat fun page =>
    if pmmIsPageAvailable s.memmap (BitVec.ofNat 64 page * MM_PHYS_PAGE_SIZE) then pure ()
    else bitmapSet s.pmm.allocatedPages page)

def pmmLoad : Prog Fault PmmState Unit := do
  pmmFindHighestPage
  pmmReserveBitmap
  pmmScanBitmap

/-! ## 3. Allocating and freeing -/

def pmmMarkPages (page length : Nat) : Prog Fault PmmState Unit := do
  let s ← get
  onMem (forUp length fun offset => bitmapSet s.pmm.allocatedPages (page + offset))

def pmmClearPages (page length : Nat) : Prog Fault PmmState Unit := do
  let s ← get
  onMem (forUp length fun offset => bitmapClear s.pmm.allocatedPages (page + offset))

/-- The inner loop of `pmm_try_alloc` from offset `pageCount - k` on: does the run of
    `pageCount` clear bits reach its last page? -/
def probeRun (self : Bitmap) (pageBase pageCount : Nat) : Nat → Prog Fault Mem Bool
  | 0 => pure false
  | k + 1 => do
      let pageOffset := pageCount - (k + 1)
      let isset ← bitmapIsset self (pageBase + pageOffset)
      if isset then pure false
      else if pageOffset = pageCount - 1 then pure true
      else probeRun self pageBase pageCount k

/-- The outer loop of `pmm_try_alloc` from base `total - k` on: the first base whose run is
    clear. -/
def findRun (self : Bitmap) (pageCount total : Nat) : Nat → Prog Fault Mem (Option Nat)
  | 0 => pure none
  | k + 1 => do
      let pageBase := total - (k + 1)
      let found ← probeRun self pageBase pageCount pageCount
      if found then pure (some pageBase)
      else findRun self pageCount total k

/-- The null pointer stands for failure, as in the source. -/
def pmmTryAlloc (pageCount : Usize) : Prog Fault PmmState Uptr := do
  let s ← get
  let total := (pmmGetPageCount s.pmm).toNat
  let found ← onMem (findRun s.pmm.allocatedPages pageCount.toNat total total)
  match found with
  | some pageBase => do
      pmmMarkPages pageBase pageCount.toNat
      let va := hhdmP2v s.hhdm (BitVec.ofNat 64 pageBase * MM_PHYS_PAGE_SIZE)
      let va ← onMem (memset va 0 (pageCount * MM_PHYS_PAGE_SIZE))
      return hhdmV2p s.hhdm va
  | none => return 0

def pmmAlloc (pageCount : Usize) : Prog Fault PmmState Uptr := do
  let paddr ← pmmTryAlloc pageCount
  if paddr = 0 then panic "[pmm] No free pages available"
  else return paddr

def pmmFree (pa : Uptr) (pageCount : Usize) : Prog Fault PmmState Unit :=
  pmmClearPages (pa / MM_PHYS_PAGE_SIZE).toNat pageCount.toNat

end Slightx
