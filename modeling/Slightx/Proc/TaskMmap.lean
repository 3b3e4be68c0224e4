/-
  File:      Slightx/Proc/TaskMmap.lean
  Subject:   The mappings of a task, as kernel/proc/task.c computes them.

  Sources: kernel/proc/task.c (mappings, `task_mmap`, `task_munmap`),
  kernel/include/kernel/proc/task.h.

  A family of tasks shares one memory and one frame allocator. The records of the mappings are
  blocks of the kernel's heap, named by their addresses and linked through `prev` and `next`. What
  the heap does for a record is an argument of the call: the block it gives, and how many frames
  it takes from the allocator (or gives back to it) on the way; its own page tables are those of
  the kernel's half and are left out.

  `for (m = self->mappings; m != NULL; m = m->next)` is a walk that passes as many records as
  there are at most: on a list without a cycle these are all of it.
-/
import Slightx.Lib.DList
import Slightx.Mem.Vmm

namespace Slightx

open Lib

/-! ## 1. Constants -/

def USER_STACK_TOP : Uptr := 0x00007FFFFFFFE000
def USER_STARTUP_BASE : Uptr := 0x00007FFFFF000000

abbrev TaskMmapFlags := U8

def TASK_MMAP_ACCESS_READ : TaskMmapFlags := 1 <<< 0
def TASK_MMAP_ACCESS_WRITE : TaskMmapFlags := 1 <<< 1
def TASK_MMAP_ACCESS_EXEC : TaskMmapFlags := 1 <<< 2
def TASK_MMAP_FIXED : TaskMmapFlags := 1 <<< 3

/-- The search of `task_mmap` for a range starts here. -/
def MMAP_SEARCH_BASE : Uptr := 0x000100000000000

/-! ## 2. The state -/

/-- A record of a mapping, without its links. -/
structure TaskMapping where
  vaddr : Uptr
  flags : U64
  pageCount : Usize
  deriving DecidableEq, Repr

/-- The fields of a task its mappings need. -/
structure Task where
  pmap : PageMap
  mappings : Option Uptr

structure Tasks (ι : Type) where
  vmm : VmmState
  task : ι → Task
  mapping : Uptr → TaskMapping
  links : Uptr → Links Uptr
  /-- the records that are allocated -/
  records : List Uptr
  /-- the frames the kernel's heap took for records -/
  heapFrames : List Uptr

/-- What the kernel's heap does for a record: the block it gives, and the frames it takes. -/
structure HeapAnswer where
  block : Uptr
  frames : Nat

/-! ## 3. The list of mappings -/

variable {ι : Type} [DecidableEq ι]

def inVmm {α : Type} (x : Prog Fault VmmState α) : Prog Fault (Tasks ι) α :=
  zoom Tasks.vmm (fun s vmm => { s with vmm }) x

/-- The records a walk over the mappings of `self` passes. -/
def Tasks.mappings (s : Tasks ι) (self : ι) : List Uptr :=
  passed s.links s.records.length (s.task self).mappings

/-- `allocate(heap_allocator(), sizeof(task_mapping))` -/
def allocateMapping (heap : HeapAnswer) : Prog Fault (Tasks ι) Uptr := do
  forUp heap.frames fun _ => do
    let frame ← inVmm pmmAllocFrame
    modify fun s => { s with heapFrames := frame :: s.heapFrames }
  modify fun s => { s with
    records := heap.block :: s.records
    mapping := Function.update s.mapping heap.block ⟨0, 0, 0⟩
    links := Function.update s.links heap.block ⟨none, none⟩ }
  return heap.block

/-- `deallocate(heap_allocator(), mapping, sizeof(task_mapping))`, after which the heap gives the
    last `frames` of its frames back. -/
def deallocateMapping (mapping : Uptr) (frames : Nat) : Prog Fault (Tasks ι) Unit :=
  modify fun s => { s with
    records := s.records.erase mapping
    heapFrames := s.heapFrames.drop frames
    vmm := { s.vmm with free := s.heapFrames.take frames ++ s.vmm.free } }

def taskAddMapping (self : ι) (heap : HeapAnswer) : Prog Fault (Tasks ι) Uptr := do
  let mapping ← allocateMapping heap
  modify fun s => { s with
    links := linkFront s.links (s.task self).mappings mapping
    task := Function.update s.task self { s.task self with mappings := some mapping } }
  return mapping

def taskMappingOverlaps (s : Tasks ι) (self : ι) (base : Uptr) (length : Usize) : Bool :=
  let rangeEnd := base + length
  (s.mappings self).any fun m =>
    let mBase := (s.mapping m).vaddr
    let mEnd := mBase + (s.mapping m).pageCount * MM_VIRT_PAGE_SIZE
    !(rangeEnd ≤ mBase || mEnd ≤ base)

def taskRangeHitsReserved (base : Uptr) (length : Usize) : Bool :=
  let rangeEnd := base + length
  !(rangeEnd ≤ USER_STARTUP_BASE || USER_STACK_TOP ≤ base)

def taskDelMapping (self : ι) (mapping : Uptr) (frames : Nat) : Prog Fault (Tasks ι) Unit := do
  modify fun s => { s with
    links := bypass s.links mapping
    task := if (s.links mapping).prev = none then
        Function.update s.task self { s.task self with mappings := (s.links mapping).next }
      else s.task }
  deallocateMapping mapping frames

/-! ## 4. `task_mmap` -/

def taskRoundToPage (length : Usize) : Option Usize :=
  if length = 0 then none
  else if BitVec.allOnes 64 - (MM_VIRT_PAGE_SIZE - 1) < length then none
  else some (alignSizeUp length MM_VIRT_PAGE_SIZE)

/-- The first candidate of at most `n` that overlaps nothing. -/
def firstFree (overlaps : Uptr → Bool) : Nat → Uptr → Option Uptr
  | 0, _ => none
  | n + 1, candidate =>
      if !overlaps candidate then some candidate
      else firstFree overlaps n (candidate + MM_VIRT_PAGE_SIZE)

/-- Where `task_mmap` puts a range of `length` bytes, a multiple of the page size; `none` where
    it gives up. -/
def taskMmapPlace (s : Tasks ι) (self : ι) (addr : Uptr) (length : Usize) (flags : TaskMmapFlags) :
    Option Uptr :=
  if flags &&& TASK_MMAP_FIXED ≠ 0 then
    if addr = 0 || !isPtrAligned addr MM_VIRT_PAGE_SIZE || USER_STACK_TOP < addr ||
        USER_STACK_TOP - addr < length || taskRangeHitsReserved addr length ||
        taskMappingOverlaps s self addr length then none
    else some addr
  else
    let searchBase := MMAP_SEARCH_BASE
    let searchLimit := USER_STARTUP_BASE
    if searchLimit - searchBase < length then none
    else
      let lastCandidate := searchLimit - length
      let candidates := (lastCandidate - searchBase).toNat / MM_VIRT_PAGE_SIZE.toNat + 1
      firstFree (fun candidate => taskMappingOverlaps s self candidate length) candidates searchBase

def mmapPageFlags (flags : TaskMmapFlags) : U64 :=
  let pageFlags := MM_PT_FLAG_VALID ||| MM_PT_FLAG_USER
  let pageFlags := if flags &&& TASK_MMAP_ACCESS_WRITE ≠ 0 then pageFlags ||| MM_PT_FLAG_WRITE
    else pageFlags
  if flags &&& TASK_MMAP_ACCESS_EXEC = 0 then pageFlags ||| MM_PT_FLAG_NX else pageFlags

/-- The loop of `task_mmap` over its pages; `false` where it ran out of frames and rolled back.
    The pages mapped so far are `i`. -/
def mmapPages (pages1gb : Bool) (pmap : PageMap) (addr : Uptr) (flags : TaskMmapFlags)
    (pageCount : Nat) : Prog Fault VmmState Bool :=
  forUpWhile pageCount fun i => do
    let paddr ← pmmTryAllocFrame
    if paddr = 0 then do
      forUp i fun j => releasePage pmap (vaddrOf addr j)
      return false
    else do
      vmmMap pages1gb pmap (vaddrOf addr i) paddr (mmapPageFlags flags) MM_PAGE_4KB
      return true

/-- The answer is the null pointer where the source returns `NULL`. -/
def taskMmap (pages1gb : Bool) (self : ι) (addr : Uptr) (length : Usize) (flags : TaskMmapFlags)
    (heap : HeapAnswer) : Prog Fault (Tasks ι) Uptr := do
  match taskRoundToPage length with
  | none => return 0
  | some length => do
      let s ← get
      match taskMmapPlace s self addr length flags with
      | none => return 0
      | some addr => do
          let pageCount := length / MM_VIRT_PAGE_SIZE
          let mapped ← (if flags &&& TASK_MMAP_ACCESS_READ ≠ 0 then
              inVmm (mmapPages pages1gb (s.task self).pmap addr flags pageCount.toNat)
            else pure true)
          if mapped then do
            let mapping ← taskAddMapping self heap
            let record : TaskMapping := ⟨addr, flags.setWidth 64, pageCount⟩
            modify fun s => { s with mapping := Function.update s.mapping mapping record }
            return addr
          else return 0

/-! ## 5. `task_munmap` -/

/-- Other processors drop their translations; the state has none. -/
def vmmShootdownRange (_base : Uptr) (_pageCount : Usize) : Prog Fault VmmState Unit := pure ()

/-- The record is the one `task_munmap` looks for. -/
def unmapMatches (m : TaskMapping) (unmapBase unmapEnd : Uptr) : Bool :=
  unmapBase = m.vaddr && unmapEnd = m.vaddr + m.pageCount * MM_VIRT_PAGE_SIZE

def taskMunmap (self : ι) (addr : Uptr) (length : Usize) (frames : Nat) :
    Prog Fault (Tasks ι) Unit := do
  if length = 0 || addr = 0 then return
  else
    match taskRoundToPage length with
    | none => return
    | some unmapLen => do
        if USER_STACK_TOP < addr then return
        else if USER_STACK_TOP - addr < unmapLen then return
        else do
          let unmapEnd := addr + unmapLen
          let s ← get
          match (s.mappings self).find? fun m => unmapMatches (s.mapping m) addr unmapEnd with
          | none => return
          | some m => do
              let r := s.mapping m
              let _ ← (if r.flags &&& TASK_MMAP_ACCESS_READ.setWidth 64 ≠ 0 then do
                  inVmm (forUp r.pageCount.toNat fun i =>
                    releasePage (s.task self).pmap (vaddrOf r.vaddr i))
                  inVmm (vmmShootdownRange r.vaddr r.pageCount)
                else pure ())
              taskDelMapping self m frames

/-! ## 6. Runs -/

/-- The calls a task makes. -/
inductive MmapCall (ι : Type) where
  | mmap (self : ι) (addr : Uptr) (length : Usize) (flags : TaskMmapFlags) (heap : HeapAnswer)
  | munmap (self : ι) (addr : Uptr) (length : Usize) (frames : Nat)

def MmapCall.run (pages1gb : Bool) : MmapCall ι → Prog Fault (Tasks ι) Uptr
  | .mmap self addr length flags heap => taskMmap pages1gb self addr length flags heap
  | .munmap self addr length frames => do
      taskMunmap self addr length frames
      return 0

/-- The heap gives no block it has already given. -/
def MmapCall.Fresh (s : Tasks ι) : MmapCall ι → Prop
  | .mmap _ _ _ _ heap => heap.block ∉ s.records
  | .munmap _ _ _ _ => True

/-- Any sequence of calls that return. Between them the rest of the kernel may take free frames,
    and the allocator may give the others in any order. -/
inductive MmapRun (pages1gb : Bool) (s₀ : Tasks ι) : Tasks ι → Prop where
  | start : MmapRun pages1gb s₀ s₀
  | call {s s' : Tasks ι} {a : Uptr} (c : MmapCall ι) (h : MmapRun pages1gb s₀ s)
      (hfresh : c.Fresh s) (hrun : c.run pages1gb s = .ok (a, s')) : MmapRun pages1gb s₀ s'
  | others {s : Tasks ι} (free : List Uptr) (h : MmapRun pages1gb s₀ s)
      (hfree : free.Subperm s.vmm.free) :
      MmapRun pages1gb s₀ { s with vmm := { s.vmm with free } }

end Slightx
