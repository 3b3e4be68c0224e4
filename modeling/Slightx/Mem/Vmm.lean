/-
  File:      Slightx/Mem/Vmm.lean
  Subject:   Page maps, as kernel/mem/vmm.c computes them.

  Sources: kernel/mem/vmm.c, kernel/include/kernel/mem/vmm.h, kernel/mem/pmm.c (`pmm_alloc`,
  `pmm_try_alloc` and `pmm_free` for one page).

  A page table is a frame of 512 words. The source reaches it through the direct map; here the
  memory is keyed by physical address and a table is named by the address of its frame, so
  `hhdm_p2v` and `hhdm_v2p` cancel. The state carries the frames the page allocator still has to
  give: `pmm_alloc(1)` takes the first of them and zeroes it. Nothing is said about their order,
  so a state stands for any choice of the allocator.

  The lock of the kernel's page map makes each call one step and is not modelled; neither is the
  translation cache, so `vmm_invalidate_page` does nothing.
-/
import Slightx.Mem.Pmm

namespace Slightx

open Lib

/-! ## 1. Constants -/

/-- The size of the pages the other modules count in. -/
def MM_VIRT_PAGE_SIZE : Usize := 0x1000

/-- A page behind an entry of level 1. -/
def MM_PAGE_4KB : Usize := 0x1000

/-- A page behind an entry of level 2. -/
def MM_PAGE_2MB : Usize := 0x200000

/-- A page behind an entry of level 3. -/
def MM_PAGE_1GB : Usize := 0x40000000

/-- The entry leads somewhere. -/
def MM_PT_FLAG_VALID : U64 := 1 <<< 0

/-- Writes go through. -/
def MM_PT_FLAG_WRITE : U64 := 1 <<< 1

/-- User code goes through. -/
def MM_PT_FLAG_USER : U64 := 1 <<< 2

/-- Above level 1, the entry is that of a page and not of a table. -/
def MM_PT_FLAG_LARGE : U64 := 1 <<< 7

/-- The translation outlives a switch of page maps. -/
def MM_PT_FLAG_GLOBAL : U64 := 1 <<< 8

/-- Nothing is executed behind the entry. -/
def MM_PT_FLAG_NX : U64 := 1 <<< 63

/-- The bits of an entry that hold an address. -/
def MM_PT_PADDR_MASK : U64 := 0x0000FFFFFFFFF000

/-- The flags of a table on the way of a kernel page. -/
def MM_PT_KERN_TABLE_FLAGS : U64 := MM_PT_FLAG_VALID ||| MM_PT_FLAG_WRITE

/-- The flags of a table on the way of a user page. -/
def MM_PT_USER_TABLE_FLAGS : U64 := MM_PT_FLAG_VALID ||| MM_PT_FLAG_WRITE ||| MM_PT_FLAG_USER

/-- The flags a page keeps when it is split. -/
def mmPtDefaultFlags (x : U64) : U64 := x &&& (MM_PT_FLAG_WRITE ||| MM_PT_FLAG_NX)

/-! ## 2. The state -/

/-- The levels of a page table, from the one that holds pages of 4 KB up. -/
inductive PageMapLevel where
  | PML1
  | PML2
  | PML3
  | PML4
  | PML5
  deriving DecidableEq, Repr

/-- `page_map` -/
structure PageMap where
  level : PageMapLevel
  /-- the frame of the top-level table -/
  directory : Uptr
  deriving DecidableEq, Repr

/-- What the functions below change. -/
structure VmmState where
  /-- physical memory -/
  mem : Mem
  /-- the frames `pmm_alloc(1)` gives, in its order -/
  free : List Uptr

/-- `pmm_alloc(1)`: the next free frame, zeroed. -/
def pmmAllocFrame : Prog Fault VmmState Uptr := do
  let s ← get
  match s.free with
  | [] => panic "[pmm] No free pages available"
  | pa :: free => do
      set { mem := fill s.mem pa.toNat 4096 0, free : VmmState }
      return pa

/-- `pmm_try_alloc(1)`: the next free frame, zeroed, or the null pointer. -/
def pmmTryAllocFrame : Prog Fault VmmState Uptr := do
  let s ← get
  match s.free with
  | [] => return 0
  | pa :: free => do
      set { mem := fill s.mem pa.toNat 4096 0, free : VmmState }
      return pa

/-- `pmm_free(pa, 1)`. A frame freed twice is in the list twice. -/
def pmmFreeFrame (pa : Uptr) : Prog Fault VmmState Unit :=
  modify fun s => { s with free := pa / MM_PHYS_PAGE_SIZE * MM_PHYS_PAGE_SIZE :: s.free }

/-- Entry `index` of the table at `pd`. -/
def pteAt (m : Mem) (pd : Uptr) (index : Nat) : U64 := load64 m (pd.toNat + 8 * index)

/-- `pd[index]` -/
def pdLoad (pd : Uptr) (index : Nat) : Prog Fault VmmState U64 := do
  let s ← get
  return pteAt s.mem pd index

/-- `pd[index] = pte` -/
def pdStore (pd : Uptr) (index : Nat) (pte : U64) : Prog Fault VmmState Unit :=
  modify fun s => { s with mem := store64 s.mem (pd.toNat + 8 * index) pte }

/-! ## 3. Helpers -/

/-- The entry of `va` in a table of level 5. -/
def pml5Index (va : Uptr) : Nat := (va >>> 48 &&& 0x1FF).toNat

/-- Its entry in a table of level 4. -/
def pml4Index (va : Uptr) : Nat := (va >>> 39 &&& 0x1FF).toNat

/-- Its entry in a table of level 3. -/
def pml3Index (va : Uptr) : Nat := (va >>> 30 &&& 0x1FF).toNat

/-- Its entry in a table of level 2. -/
def pml2Index (va : Uptr) : Nat := (va >>> 21 &&& 0x1FF).toNat

/-- Its entry in a table of level 1. -/
def pml1Index (va : Uptr) : Nat := (va >>> 12 &&& 0x1FF).toNat

/-- Does the entry lead somewhere? -/
def ptePresent (pte : U64) : Bool := pte &&& MM_PT_FLAG_VALID != 0

/-- Above level 1: does it lead to a page? -/
def pteLarge (pte : U64) : Bool := pte &&& MM_PT_FLAG_LARGE != 0

/-- The table or the page an entry leads to. -/
def pteP2v (pte : U64) : Uptr := pte &&& MM_PT_PADDR_MASK

/-- A large page becomes a table of pages of the next smaller size, with its flags. -/
def pdSplit (pd : Uptr) (index : Nat) (oldPageSize newPageSize : Usize) (tableFlags : U64) :
    Prog Fault VmmState Uptr := do
  let pte ← pdLoad pd index
  if !ptePresent pte || !pteLarge pte then
    panic "[vmm] pd_split(): called on non-large page"
  else if ¬ ((oldPageSize = MM_PAGE_1GB ∧ newPageSize = MM_PAGE_2MB) ∨
      (oldPageSize = MM_PAGE_2MB ∧ newPageSize = MM_PAGE_4KB)) then
    panic "[vmm] pd_split(): called with invalid page sizes"
  else do
    let physBase := pte &&& MM_PT_PADDR_MASK
    let leafFlags := mmPtDefaultFlags pte ||| MM_PT_FLAG_VALID
    let leafFlags := if newPageSize = MM_PAGE_2MB then leafFlags ||| MM_PT_FLAG_LARGE else leafFlags
    let child ← pmmAllocFrame
    let count := oldPageSize / newPageSize
    forUp count.toNat fun i =>
      pdStore child i ((physBase + BitVec.ofNat 64 i * newPageSize) ||| leafFlags)
    pdStore pd index (child ||| tableFlags)
    return child

/-- The null pointer stands for no table, as in the source. -/
def pdGet (pd : Uptr) (index : Nat) : Prog Fault VmmState Uptr := do
  let pte ← pdLoad pd index
  return if ptePresent pte && !pteLarge pte then pteP2v pte else 0

/-- The table behind entry `index`: made if the entry is absent, the parts of a page if it is one. -/
def pdGetOrCreate (pd : Uptr) (index : Nat) (level : PageMapLevel) (tableFlags : U64) :
    Prog Fault VmmState Uptr := do
  let pte ← pdLoad pd index
  if !ptePresent pte then do
    let table ← pmmAllocFrame
    pdStore pd index (table ||| tableFlags)
    return table
  else if !pteLarge pte then do
    let _ ← (if tableFlags &&& MM_PT_FLAG_USER ≠ 0 ∧ pte &&& MM_PT_FLAG_USER = 0 then
      pdStore pd index (pte ||| MM_PT_FLAG_USER) else pure ())
    return pteP2v pte
  else
    match level with
    | .PML3 => pdSplit pd index MM_PAGE_1GB MM_PAGE_2MB tableFlags
    | .PML2 => pdSplit pd index MM_PAGE_2MB MM_PAGE_4KB tableFlags
    | _ => panic "[vmm] pd_get_or_create(): invalid level for split"

/-! ## 4. Mapping and unmapping -/

/-- The flags `vmm_map_impl` gives the tables on the way. -/
def vmmTableFlags (flags : U64) : U64 :=
  if flags &&& MM_PT_FLAG_USER ≠ 0 then MM_PT_USER_TABLE_FLAGS else MM_PT_KERN_TABLE_FLAGS

/-- The switch of `vmm_map_impl` over the level of the page map. -/
def vmmMapPml4 (pmap : PageMap) (va : Uptr) (tableFlags : U64) : Prog Fault VmmState Uptr :=
  match pmap.level with
  | .PML5 => pdGetOrCreate pmap.directory (pml5Index va) .PML5 tableFlags
  | .PML4 => pure pmap.directory
  | _ => panic "[vmm] vmm_map(): invalid page map level"

/-- The part of `vmm_map_impl` below the table `pml3`. -/
def vmmMapFrom (pml3 : Uptr) (va pa : Uptr) (flags tableFlags : U64) (size : Usize) :
    Prog Fault VmmState Unit := do
  let pml2 ← pdGetOrCreate pml3 (pml3Index va) .PML3 tableFlags
  if size ≠ MM_PAGE_4KB then
    pdStore pml2 (pml2Index va) (pa ||| flags ||| MM_PT_FLAG_LARGE)
  else do
    let pml1 ← pdGetOrCreate pml2 (pml2Index va) .PML2 tableFlags
    pdStore pml1 (pml1Index va) (pa ||| flags)

/-- `pages1gb` is the answer of `vmm__pages_1gb_support`. -/
def vmmMapImpl (pages1gb : Bool) (pmap : PageMap) (va pa : Uptr) (flags : U64) (size : Usize) :
    Prog Fault VmmState Unit := do
  assert (size = MM_PAGE_4KB ∨ size = MM_PAGE_2MB ∨ size = MM_PAGE_1GB)
    "size == MM_PAGE_4KB || size == MM_PAGE_2MB || size == MM_PAGE_1GB"
  assertRelease (isPtrAligned va size ∧ isPtrAligned pa size)
    "is_ptr_aligned(va.addr, size) && is_ptr_aligned(pa.addr, size)"
  let flags := flags ||| MM_PT_FLAG_VALID
  let tableFlags := vmmTableFlags flags
  let pml4 ← vmmMapPml4 pmap va tableFlags
  let pml3 ← pdGetOrCreate pml4 (pml4Index va) .PML4 tableFlags
  let _ ← (if _ : size = MM_PAGE_1GB then
      if pages1gb then pdStore pml3 (pml3Index va) (pa ||| flags ||| MM_PT_FLAG_LARGE)
      else forUp (MM_PAGE_1GB / MM_PAGE_2MB).toNat fun k =>
        let offset := BitVec.ofNat 64 k * MM_PAGE_2MB
        vmmMapImpl pages1gb pmap (va + offset) (pa + offset) flags MM_PAGE_2MB
    else pure ())
  -- a page of 1 GB goes on here as well: its first 2 MB are mapped once more
  vmmMapFrom pml3 va pa flags tableFlags size
termination_by size.toNat
decreasing_by
  rw [‹size = MM_PAGE_1GB›]
  decide

/-- `vmm_map` is `vmm_map_impl`, under the lock where it is the kernel's page map. -/
def vmmMap (pages1gb : Bool) (pmap : PageMap) (va pa : Uptr) (flags : U64) (size : Usize) :
    Prog Fault VmmState Unit :=
  vmmMapImpl pages1gb pmap va pa flags size

/-- `invlpg` -/
def vmmInvalidatePage (_va : Uptr) : Prog Fault VmmState Unit := pure ()

/-- The part of `vmm_unmap_impl` from the table `pml4` on. -/
def vmmUnmapFrom (pml4 : Uptr) (va : Uptr) : Prog Fault VmmState Unit := do
  let e ← pdLoad pml4 (pml4Index va)
  if !ptePresent e then return
  else if pteLarge e then panic "[vmm] vmm_unmap(): large pages not supported at PML4 level"
  else do
    let pml3 ← pdGet pml4 (pml4Index va)
    let e ← pdLoad pml3 (pml3Index va)
    if !ptePresent e then return
    else if pteLarge e then do
      pdStore pml3 (pml3Index va) 0
      vmmInvalidatePage va
    else do
      let pml2 ← pdGet pml3 (pml3Index va)
      let e ← pdLoad pml2 (pml2Index va)
      if !ptePresent e then return
      else if pteLarge e then do
        pdStore pml2 (pml2Index va) 0
        vmmInvalidatePage va
      else do
        let pml1 ← pdGet pml2 (pml2Index va)
        let e ← pdLoad pml1 (pml1Index va)
        if !ptePresent e then return
        else do
          pdStore pml1 (pml1Index va) 0
          vmmInvalidatePage va

/-- The entry of the page is cleared; the tables on its way stay. -/
def vmmUnmapImpl (pmap : PageMap) (va : Uptr) : Prog Fault VmmState Unit := do
  match pmap.level with
  | .PML5 => do
      let pml5 := pmap.directory
      let e ← pdLoad pml5 (pml5Index va)
      if !ptePresent e then return
      else if pteLarge e then panic "[vmm] vmm_unmap(): large pages not supported at PML5 level"
      else do
        let pml4 ← pdGet pml5 (pml5Index va)
        vmmUnmapFrom pml4 va
  | .PML4 => vmmUnmapFrom pmap.directory va
  | _ => panic "[vmm] vmm_unmap(): invalid page map level"

/-- `vmm_unmap` is `vmm_unmap_impl`, under the lock where it is the kernel's page map. -/
def vmmUnmap (pmap : PageMap) (va : Uptr) : Prog Fault VmmState Unit := vmmUnmapImpl pmap va

/-! ## 5. Questions -/

/-- The answer of `vmm_translate_impl` at an entry whose offset mask is `mask`. -/
def leafAddress (e mask : U64) (va : Uptr) : Uptr := (e &&& MM_PT_PADDR_MASK) ||| (va &&& mask)

/-- The part of `vmm_translate_impl` from the table `pml4` on. -/
def vmmTranslateFrom (pml4 : Uptr) (va : Uptr) : Prog Fault VmmState Uptr := do
  let e ← pdLoad pml4 (pml4Index va)
  if !ptePresent e then panic "[vmm] vmm_translate(): invalid address at PML4 level"
  else if pteLarge e then return leafAddress e (MM_PAGE_1GB - 1) va
  else do
    let pml3 := pteP2v e
    let e ← pdLoad pml3 (pml3Index va)
    if !ptePresent e then panic "[vmm] vmm_translate(): invalid address at PML3 level"
    else if pteLarge e then return leafAddress e (MM_PAGE_2MB - 1) va
    else do
      let pml2 := pteP2v e
      let e ← pdLoad pml2 (pml2Index va)
      if !ptePresent e then panic "[vmm] vmm_translate(): invalid address at PML2 level"
      else if pteLarge e then return leafAddress e (MM_PAGE_2MB - 1) va
      else do
        let pml1 := pteP2v e
        let e ← pdLoad pml1 (pml1Index va)
        if !ptePresent e then panic "[vmm] vmm_translate(): invalid address at PML1 level"
        else return leafAddress e (MM_PAGE_4KB - 1) va

/-- The address `va` stands for; a panic where nothing is mapped. -/
def vmmTranslateImpl (pmap : PageMap) (va : Uptr) : Prog Fault VmmState Uptr := do
  match pmap.level with
  | .PML5 => do
      let pml5 := pmap.directory
      let e ← pdLoad pml5 (pml5Index va)
      if !ptePresent e then panic "[vmm] vmm_translate(): invalid address at PML5 level"
      else if pteLarge e then return leafAddress e (MM_PAGE_1GB - 1) va
      else vmmTranslateFrom (pteP2v e) va
  | .PML4 => vmmTranslateFrom pmap.directory va
  | _ => panic "[vmm] vmm_translate(): invalid page map level"

/-- `vmm_translate` is `vmm_translate_impl`, under the lock where it is the kernel's page map. -/
def vmmTranslate (pmap : PageMap) (va : Uptr) : Prog Fault VmmState Uptr := vmmTranslateImpl pmap va

/-- The part of `vmm_is_mapped_impl` from the table `pml4` on. -/
def vmmIsMappedFrom (pml4 : Uptr) (va : Uptr) : Prog Fault VmmState Bool := do
  let e ← pdLoad pml4 (pml4Index va)
  if !ptePresent e then return false
  else if pteLarge e then return true
  else do
    let pml3 := pteP2v e
    let e ← pdLoad pml3 (pml3Index va)
    if !ptePresent e then return false
    else if pteLarge e then return true
    else do
      let pml2 := pteP2v e
      let e ← pdLoad pml2 (pml2Index va)
      if !ptePresent e then return false
      else if pteLarge e then return true
      else do
        let pml1 := pteP2v e
        let e ← pdLoad pml1 (pml1Index va)
        if !ptePresent e then return false
        else return true

/-- Does the way of `va` end at a page? -/
def vmmIsMappedImpl (pmap : PageMap) (va : Uptr) : Prog Fault VmmState Bool := do
  match pmap.level with
  | .PML5 => do
      let pml5 := pmap.directory
      let e ← pdLoad pml5 (pml5Index va)
      if !ptePresent e then return false
      else if pteLarge e then return true
      else vmmIsMappedFrom (pteP2v e) va
  | .PML4 => vmmIsMappedFrom pmap.directory va
  | _ => panic "[vmm] vmm_is_mapped(): invalid page map level"

/-- `vmm_is_mapped` is `vmm_is_mapped_impl`, under the lock where it is the kernel's page map. -/
def vmmIsMapped (pmap : PageMap) (va : Uptr) : Prog Fault VmmState Bool := vmmIsMappedImpl pmap va

/-! ## 6. New page maps -/

/-- `fiveLevel` is the bootloader's answer to the paging mode request. Both branches of the
    source copy the upper half of the kernel's top-level table. -/
def vmmMakePageMap (fiveLevel : Bool) (kernelPageMap : PageMap) : Prog Fault VmmState PageMap := do
  let level := if fiveLevel then PageMapLevel.PML5 else PageMapLevel.PML4
  let directory ← pmmAllocFrame
  forUp 256 fun k => do
    let i := 256 + k
    let pte ← pdLoad kernelPageMap.directory i
    pdStore directory i pte
  return { level, directory }

/-! ## 7. Ranges of pages -/

/-- The `i`-th page from `base` on. -/
def vaddrOf (base : Uptr) (i : Nat) : Uptr := base + BitVec.ofNat 64 i * MM_VIRT_PAGE_SIZE

theorem toNat_vaddrOf (base : Uptr) (i : Nat) (h : base.toNat + 4096 * i < 2 ^ 64) :
    (vaddrOf base i).toNat = base.toNat + 4096 * i := by
  unfold vaddrOf
  rw [BitVec.toNat_add, BitVec.toNat_mul, ofNat_toNat_lt (by omega),
    show MM_VIRT_PAGE_SIZE.toNat = 4096 from rfl]
  omega

/-- The body of the loops that give the page at `vaddr` back. -/
def releasePage (pmap : PageMap) (vaddr : Uptr) : Prog Fault VmmState Unit := do
  let paddr ← vmmTranslate pmap vaddr
  vmmUnmap pmap vaddr
  pmmFreeFrame paddr

end Slightx
