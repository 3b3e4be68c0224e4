/-
  File:      Slightx/Proc/TaskInit.lean
  Subject:   `task_init`, in a build with assertions and in one without.

  Sources: kernel/proc/task.c, kernel/proc/task.h, kernel/proc/capabilities/console.c,
  klibc/assert.h, klibc/mem/arena.c, klibc/mem/alloc.c.

  Under `NDEBUG` an `assert` does not evaluate its condition. `ndebug` says which build it is;
  an assertion whose condition is a constant of its caller is the same in both and is left out, and
  so is what `memcpy` asserts of an address in the direct map.

  The heap of the kernel is a parameter: for a block it gives, zeroed, it does what it does to its
  own state `η` and to the frame allocator. The startup data is read from the memory of the caller,
  `umem`; it is written by physical address, as in `Mem/Vmm.lean`.

  * `wp_capabilities_debug`, `wp_capabilities_release` -- what the two builds do to the capabilities
  * `builds_disagree` -- so they never make the same task
-/
import Slightx.Klibc.Arena
import Slightx.Mem.VmmTree
import Slightx.Proc.CapMap
import Slightx.Proc.Scheduler
import Slightx.Proc.TaskMmap

namespace Slightx

open Lib

/-! ## 1. Builds -/

section Builds

variable {σ : Type}

/-- `assert(cond)` -/
def assertIn (ndebug : Bool) (cond : Prop) [Decidable cond] (text : String) : Prog Fault σ Unit :=
  if ndebug then pure () else assert cond text

/-- `assert(call(…))` -/
def assertCall (ndebug : Bool) (call : Prog Fault σ Bool) (text : String) : Prog Fault σ Unit :=
  if ndebug then pure ()
  else do
    let ok ← call
    assert (ok = true) text

end Builds

/-! ## 2. Descriptors and tasks -/

structure TaskEntrypoint where
  fn : Uptr
  arg : Uptr
  deriving DecidableEq, Repr

structure TaskPin where
  enabled : Bool
  processorId : Usize
  deriving DecidableEq, Repr

def TH_TASK_FLAG_DETACHED : U8 := 1 <<< 0
def TH_TASK_FLAG_GUARDPAGE : U8 := 1 <<< 1
def TH_TASK_FLAG_KERNEL : U8 := 1 <<< 2

structure TaskDesc where
  taskId : Tid
  kstackSize : Usize
  ustackSize : Usize
  entrypoint : TaskEntrypoint
  pin : TaskPin
  flags : U8
  uid : U32
  gid : U32
  deriving DecidableEq, Repr

structure TaskContext where
  rsp : U64
  rbp : U64
  rbx : U64
  r12 : U64
  r13 : U64
  r14 : U64
  r15 : U64
  rip : U64
  rflags : U64
  deriving DecidableEq, Repr

structure TaskStack where
  base : Uptr
  limit : Uptr
  size : Usize
  deriving DecidableEq, Repr

/-- `struct task`, without its capability table. -/
structure TaskRecord where
  id : Tid
  pin : TaskPin
  flags : U8
  state : TaskStateType
  refcount : Usize
  uid : U32
  gid : U32
  context : TaskContext
  kstack : TaskStack
  ustack : TaskStack
  pmap : PageMap
  mappings : Option Uptr
  lastProcessorId : Usize
  siblings : Links TaskPtr
  blocker : Links TaskPtr
  joiners : Waitqueue

/-- `η` is the heap's own state, and `stack` the words of the kernel stack. -/
structure InitState (η ω : Type) where
  heap : η
  vmm : VmmState
  stack : Uptr → U64
  caps : CapState ω

/-- The heap: `malloc` for a size and an alignment, and `free`. -/
structure KernelHeap (η : Type) where
  allocate : Usize → Usize → Prog Fault (η × VmmState) Uptr
  deallocate : Uptr → Prog Fault (η × VmmState) Unit

/-- What is fixed once the kernel is loaded. -/
structure KernelEnv (η ω : Type) where
  heap : KernelHeap η
  kernelPageMap : PageMap
  fiveLevel : Bool
  pages1gb : Bool
  kernelmodeTrampoline : Uptr
  usermodeTrampoline : Uptr
  consoleCapWrite : Uptr → Span → Prog Fault ω U64

section Init

variable {η ω α : Type}

def inHeapVmm (x : Prog Fault (η × VmmState) α) : Prog Fault (InitState η ω) α :=
  zoom (fun s => (s.heap, s.vmm)) (fun s p => { s with heap := p.1, vmm := p.2 }) x

def inInitVmm (x : Prog Fault VmmState α) : Prog Fault (InitState η ω) α :=
  zoom InitState.vmm (fun s vmm => { s with vmm }) x

def inCaps (x : Prog Fault (CapState ω) α) : Prog Fault (InitState η ω) α :=
  zoom InitState.caps (fun s caps => { s with caps }) x

variable (env : KernelEnv η ω) (ndebug : Bool)

def allocateAligned (sz align : Usize) : Prog Fault (InitState η ω) Uptr := do
  assertIn ndebug (0 < sz) "sz > 0"
  assertRelease (align % 2 = 0) "align % 2 == 0"
  assertRelease (MAX_ALIGN ≤ align) "align >= alignof(max_align_t)"
  let ptr ← inHeapVmm (env.heap.allocate sz align)
  assertRelease (ptr ≠ 0) "ptr != NULL"
  return ptr

/-- `allocate`; the heap aligns to `max_align_t`. -/
def allocate (sz : Usize) : Prog Fault (InitState η ω) Uptr := do
  assertIn ndebug (0 < sz) "sz > 0"
  let ptr ← inHeapVmm (env.heap.allocate sz MAX_ALIGN)
  assertRelease (ptr ≠ 0) "ptr != NULL"
  return ptr

/-! ## 3. Stacks and memory -/

def SIZEOF_PAGE_MAP : Usize := 16
def SIZEOF_CAP_SLOT : Usize := 24
def SIZEOF_CONSOLE_CAP : Usize := 56

def initKstack (desc : TaskDesc) : Prog Fault (InitState η ω) TaskStack := do
  let guard := desc.flags &&& TH_TASK_FLAG_GUARDPAGE ≠ 0
  let kstackSize := if guard then desc.kstackSize + MM_VIRT_PAGE_SIZE else desc.kstackSize
  let base ← allocateAligned env ndebug kstackSize MM_VIRT_PAGE_SIZE
  return {
    base
    limit := if guard then base + MM_VIRT_PAGE_SIZE else base
    size := desc.kstackSize }

def initUstack (desc : TaskDesc) : Prog Fault (InitState η ω) TaskStack := do
  if desc.flags &&& TH_TASK_FLAG_KERNEL ≠ 0 then return { base := 0, limit := 0, size := 0 }
  else
    let base ← allocateAligned env ndebug desc.ustackSize MM_VIRT_PAGE_SIZE
    return { base, limit := base, size := desc.ustackSize }

/-- The pages of the user stack are those of its block of the heap. -/
def mapUstack (pmap : PageMap) (ustack : TaskStack) : Prog Fault VmmState Unit :=
  let ustackVbase := USER_STACK_TOP - ustack.size
  forUp (ustack.size / MM_VIRT_PAGE_SIZE).toNat fun i => do
    let upa ← vmmTranslate env.kernelPageMap (vaddrOf ustack.base i)
    vmmMap env.pages1gb pmap (vaddrOf ustackVbase i) upa
      (MM_PT_FLAG_VALID ||| MM_PT_FLAG_WRITE ||| MM_PT_FLAG_USER ||| MM_PT_FLAG_NX) MM_PAGE_4KB

def initMemory (desc : TaskDesc) (ustack : TaskStack) : Prog Fault (InitState η ω) PageMap := do
  let _ ← allocate env ndebug SIZEOF_PAGE_MAP
  let pmap ← inInitVmm (vmmMakePageMap env.fiveLevel env.kernelPageMap)
  let _ ← (if desc.flags &&& TH_TASK_FLAG_KERNEL = 0 then inInitVmm (mapUstack env pmap ustack)
    else pure ())
  return pmap

/-! ## 4. Capabilities -/

def CONSOLE_CAP_ID : CapId := 0x00010000

def consoleCapOps : CapOps ω :=
  { release := none, read := none, write := some env.consoleCapWrite, invoke := none, map := none,
    ctl := none }

def makeConsoleCap : Prog Fault (InitState η ω) Uptr := do
  let cap ← allocate env ndebug SIZEOF_CONSOLE_CAP
  assertIn ndebug (cap ≠ 0) "self != NULL"
  inCaps (onHeap (modify fun h => { h with
    obj := Function.update h.obj cap { ops := consoleCapOps env, refcount := 1, flags := 0 } }))
  return cap

/-- `cap_obj_decref`: the last reference gives the object's block back. -/
def capObjDecrefIn (self : Uptr) : Prog Fault (InitState η ω) Unit := do
  assertIn ndebug (self ≠ 0) "self != NULL"
  let old ← inCaps (onHeap (capObjFetchSub self))
  let _ ← (if old = 1 then do
      inCaps (onHeap (modify fun h => h.finish self))
      inHeapVmm (env.heap.deallocate self)
    else pure ())

def initCapabilities : Prog Fault (InitState η ω) Unit := do
  let _ ← allocate env ndebug (16 * SIZEOF_CAP_SLOT)
  inCaps (onTable (capTableInit 16))
  let console ← makeConsoleCap env ndebug
  assertCall ndebug (inCaps (capTableSet CONSOLE_CAP_ID console CAP_RIGHT_WRITE 0))
    "cap_table_set( &self->capabilities, CONSOLE_CAP_ID, console, CAP_RIGHT_WRITE, 0 )"
  capObjDecrefIn env ndebug console

end Init

/-! ## 5. Startup data -/

def SIZEOF_STR : Usize := 32
def SIZEOF_STARTUP_INFO : Usize := 32

structure Strv where
  items : Uptr
  count : Usize
  deriving DecidableEq, Repr

structure StartupInfo where
  args : Strv
  envvars : Strv
  deriving DecidableEq, Repr

/-- `struct task_user_startup_info` in the memory of the caller. -/
def startupInfoAt (umem : Mem) (info : Uptr) : StartupInfo :=
  { args := ⟨load64 umem info.toNat, load64 umem (info + 8).toNat⟩
    envvars := ⟨load64 umem (info + 16).toNat, load64 umem (info + 24).toNat⟩ }

/-- The address of `items[i]`. -/
def strAddr (items : Uptr) (i : Nat) : Uptr := items + BitVec.ofNat 64 i * SIZEOF_STR

def strData (umem : Mem) (v : Strv) (i : Nat) : Uptr := load64 umem (strAddr v.items i).toNat

def strLength (umem : Mem) (v : Strv) (i : Nat) : Usize :=
  load64 umem (strAddr v.items i + 8).toNat

/-- The loops of `task_user_startup_info__get_size`. -/
def strvSize (umem : Mem) (v : Strv) (total : Usize) : Usize :=
  runUp v.count.toNat (fun i total => total + alignSizeUp (strLength umem v i) MAX_ALIGN) total

def taskUserStartupInfoGetSize (umem : Mem) (info : StartupInfo) : Usize :=
  let total := alignSizeUp SIZEOF_STARTUP_INFO MAX_ALIGN
  let total := total + alignSizeUp (info.args.count * SIZEOF_STR) MAX_ALIGN
  let total := total + alignSizeUp (info.envvars.count * SIZEOF_STR) MAX_ALIGN
  let total := strvSize umem info.args total
  strvSize umem info.envvars total

/-- The state of the copy: the memory, and the arena that lays the region out. -/
structure CopyState where
  vmm : VmmState
  tmp : Arena

section Copy

variable (ndebug : Bool) (pages1gb : Bool) (pmap : PageMap) (umem : Mem)

def arenaAllocate (sz : Usize) : Prog Fault CopyState Uptr := do
  let s ← get
  let sz := alignSizeUp sz MAX_ALIGN
  assertRelease (sz ≤ s.tmp.memory.size - s.tmp.offset) "a->memory.size - a->offset >= sz"
  set { s with tmp := { s.tmp with offset := s.tmp.offset + sz } }
  return s.tmp.memory.data + s.tmp.offset

/-- `task_vaddr_to_kernel_vaddr`, as a physical address. -/
def taskVaddrToPhys (vaddr : Uptr) : Prog Fault CopyState Uptr :=
  zoom CopyState.vmm (fun s vmm => { s with vmm }) (vmmTranslate pmap vaddr)

def writeWord (addr : Uptr) (w : U64) : Prog Fault CopyState Unit :=
  modify fun s => { s with vmm := { s.vmm with mem := store64 s.vmm.mem addr.toNat w } }

def writeByte (addr : Uptr) (b : U8) : Prog Fault CopyState Unit :=
  modify fun s => { s with vmm := { s.vmm with mem := setByte s.vmm.mem addr.toNat b } }

def readWord (addr : Uptr) : Prog Fault CopyState U64 := do
  return load64 (← get).vmm.mem addr.toNat

/-- `memcpy` from the memory of the caller. -/
def memcpyFrom (dst src : Uptr) (n : Usize) : Prog Fault CopyState Unit := do
  assertIn ndebug (src ≠ 0) "src != NULL"
  forUp n.toNat fun j =>
    writeByte (dst + BitVec.ofNat 64 j) (umem (src + BitVec.ofNat 64 j).toNat)

/-- The body of the loops over the strings; `base` is where the array is. -/
def copyStr (v : Strv) (base : Uptr) (i : Nat) : Prog Fault CopyState Unit := do
  let arg := strAddr base i
  let length := strLength umem v i
  writeWord (arg + 16) length
  writeWord (arg + 8) length
  writeByte (arg + 24) 1
  let data ← arenaAllocate length
  writeWord arg data
  let datap ← taskVaddrToPhys pmap data
  memcpyFrom ndebug umem datap (strData umem v i) length

def copyStrv (v : Strv) (items : Uptr) : Prog Fault CopyState Unit := do
  let base ← taskVaddrToPhys pmap items
  forUp v.count.toNat (copyStr ndebug pmap umem v base)

def copyStartupInfo (info : StartupInfo) : Prog Fault CopyState Unit := do
  let startupInfo ← taskVaddrToPhys pmap (← arenaAllocate SIZEOF_STARTUP_INFO)
  writeWord (startupInfo + 8) info.args.count
  writeWord startupInfo (← arenaAllocate (info.args.count * SIZEOF_STR))
  writeWord (startupInfo + 24) info.envvars.count
  writeWord (startupInfo + 16) (← arenaAllocate (info.envvars.count * SIZEOF_STR))
  copyStrv ndebug pmap umem info.args (← readWord startupInfo)
  copyStrv ndebug pmap umem info.envvars (← readWord (startupInfo + 16))

/-- The pages of the region. -/
def mapStartup (pageCount : Nat) : Prog Fault VmmState Unit :=
  forUp pageCount fun i => do
    let paddr ← pmmAllocFrame
    modify fun s => { s with mem := fill s.mem paddr.toNat 4096 0 }
    vmmMap pages1gb pmap (vaddrOf USER_STARTUP_BASE i) paddr
      (MM_PT_FLAG_VALID ||| MM_PT_FLAG_USER ||| MM_PT_FLAG_NX) MM_PAGE_4KB

/-- The startup data, and its address in the task. -/
def initStartup (arg : Uptr) : Prog Fault VmmState U64 := do
  if arg = 0 then return 0
  else
    let info := startupInfoAt umem arg
    let reqsz := taskUserStartupInfoGetSize umem info
    let pageCount := alignSizeUp reqsz MM_VIRT_PAGE_SIZE / MM_VIRT_PAGE_SIZE
    mapStartup pages1gb pmap pageCount.toNat
    assertIn ndebug (0 < reqsz) "data != NULL && size > 0"
    zoom (fun vmm => (⟨vmm, ⟨⟨USER_STARTUP_BASE, reqsz⟩, 0⟩⟩ : CopyState)) (fun _ s => s.vmm)
      (copyStartupInfo ndebug pmap umem info)
    return USER_STARTUP_BASE

end Copy

/-! ## 6. `task_init` -/

section Init

variable {η ω : Type} (env : KernelEnv η ω) (ndebug : Bool)

/-- `*(--stack) = word` -/
def pushWord (stack : Uptr) (word : U64) : Prog Fault (InitState η ω) Uptr := do
  modify fun s => { s with stack := Function.update s.stack (stack - 8) word }
  return stack - 8

def pushWords (stack : Uptr) : List U64 → Prog Fault (InitState η ω) Uptr
  | [] => return stack
  | word :: words => do pushWords (← pushWord stack word) words

/-- `GDT_SEGMENT(idx) | RING3` -/
def userSegment (idx : U64) : U64 := idx <<< 3 ||| 3

def initContext (umem : Mem) (desc : TaskDesc) (kstack : TaskStack) (pmap : PageMap) :
    Prog Fault (InitState η ω) TaskContext := do
  let stackTop := (kstack.base + kstack.size) &&& ~~~0xF
  let ctx : TaskContext :=
    { rsp := 0, rbp := 0, rbx := 0, r12 := 0, r13 := 0, r14 := 0, r15 := 0, rip := 0,
      rflags := 0x202 }
  if desc.flags &&& TH_TASK_FLAG_KERNEL ≠ 0 then
    let rsp ← pushWords stackTop
      [desc.entrypoint.arg, desc.entrypoint.fn, env.kernelmodeTrampoline]
    return { ctx with rsp, rip := env.kernelmodeTrampoline }
  else
    let info ← inInitVmm (initStartup ndebug env.pages1gb pmap umem desc.entrypoint.arg)
    let rsp ← pushWords stackTop
      [userSegment 7, userSegment 8, USER_STACK_TOP, desc.entrypoint.fn, info,
        env.usermodeTrampoline]
    return { ctx with rsp, rip := env.usermodeTrampoline }

/-- `self` is the block of the new task. -/
def taskInitIn (umem : Mem) (self : Uptr) (desc : TaskDesc) :
    Prog Fault (InitState η ω) TaskRecord := do
  assertIn ndebug (self ≠ 0) "self != NULL"
  assertIn ndebug
    ((desc.flags &&& TH_TASK_FLAG_KERNEL ≠ 0 ∧ desc.ustackSize = 0) ∨
      (desc.flags &&& TH_TASK_FLAG_KERNEL = 0 ∧ 0 < desc.ustackSize))
    ("((desc->flags & TH_TASK_FLAG_KERNEL) != 0 && desc->ustack_size == 0) || " ++
      "((desc->flags & TH_TASK_FLAG_KERNEL) == 0 && desc->ustack_size > 0)")
  let kstack ← initKstack env ndebug desc
  let ustack ← initUstack env ndebug desc
  let pmap ← initMemory env ndebug desc ustack
  initCapabilities env ndebug
  let context ← initContext env ndebug umem desc kstack pmap
  return {
    id := desc.taskId
    pin := desc.pin
    flags := desc.flags
    state := .new
    refcount := 1
    uid := desc.uid
    gid := desc.gid
    context, kstack, ustack, pmap
    mappings := none
    lastProcessorId := 0
    siblings := ⟨none, none⟩
    blocker := ⟨none, none⟩
    joiners := ⟨none, none⟩ }

end Init

/-! ## 7. The two builds -/

section TwoBuilds

variable {η ω α : Type} {env : KernelEnv η ω} {ndebug : Bool} {s s' : InitState η ω}
  {sz align : Usize} {Q : α → InitState η ω → Prop} {cond : Prop} [Decidable cond] {text : String}

theorem wp_assertIn {σ : Type} {s : σ} {Q : Unit → σ → Prop}
    (h : wp (assertIn ndebug cond text) s Q) : Q () s := by
  unfold assertIn at h
  split at h
  · exact (wp_pure _ _ _).mp h
  · exact ((wp_assert _ _ _ _).mp h).2

/-- An assertion that holds is nothing in either build. -/
theorem wp_assertIn_of {σ : Type} {s : σ} {Q : Unit → σ → Prop} (h : cond) :
    wp (assertIn ndebug cond text) s Q ↔ Q () s := by
  unfold assertIn
  split
  · exact wp_pure _ _ _
  · rw [wp_assert]
    exact and_iff_right h

omit [Decidable cond] in
theorem keeps_inHeapVmm (x : Prog Fault (η × VmmState) α) :
    Keeps (fun s : InitState η ω => s.caps) (inHeapVmm x) :=
  keeps_zoom x fun _ _ => rfl

/-- A block of the heap: it is not `NULL`, and the capabilities are what they were. -/
theorem wp_allocate {Q : Uptr → InitState η ω → Prop} (h : wp (allocate env ndebug sz) s Q) :
    ∃ ptr s', ptr ≠ 0 ∧ s'.caps = s.caps ∧ Q ptr s' := by
  unfold allocate at h
  rw [wp_bind] at h
  have h := wp_assertIn h
  rw [wp_bind] at h
  obtain ⟨ptr, s', hrun, h⟩ := h
  rw [wp_bind, wp_assertRelease] at h
  exact ⟨ptr, s', h.1, keeps_inHeapVmm _ s ptr s' hrun, (wp_pure _ _ _).mp h.2⟩

theorem wp_makeConsoleCap {Q : Uptr → InitState η ω → Prop}
    (h : wp (makeConsoleCap env ndebug) s Q) : ∃ cap s', cap ≠ 0 ∧ Q cap s' ∧
      s'.caps.table = s.caps.table ∧ s'.caps.heap.log = s.caps.heap.log ∧
      (s'.caps.heap.obj cap).refcount = 1 ∧ (s'.caps.heap.obj cap).ops.release = none := by
  unfold makeConsoleCap at h
  rw [wp_bind] at h
  obtain ⟨cap, s₁, hcap, hcaps, h⟩ := wp_allocate h
  rw [wp_bind] at h
  have h := wp_assertIn h
  rw [wp_bind] at h
  unfold inCaps onHeap at h
  rw [wp_zoom, wp_zoom, wp_modify, wp_pure] at h
  refine ⟨cap, _, hcap, h, ?_, ?_, ?_, ?_⟩
  · show s₁.caps.table = s.caps.table
    rw [hcaps]
  · show s₁.caps.heap.log = s.caps.heap.log
    rw [hcaps]
  · show (Function.update s₁.caps.heap.obj cap _ cap).refcount = 1
    rw [Function.update_self]
  · show (Function.update s₁.caps.heap.obj cap _ cap).ops.release = none
    rw [Function.update_self]
    rfl

theorem wp_capObjDecrefIn {self : Uptr} {Q : Unit → InitState η ω → Prop}
    (h : wp (capObjDecrefIn env ndebug self) s Q) : ∃ s', Q () s' ∧
      s'.caps = { s.caps with heap := s.caps.heap.decref self } := by
  unfold capObjDecrefIn capObjFetchSub at h
  rw [wp_bind] at h
  have h := wp_assertIn h
  rw [wp_bind] at h
  unfold inCaps onHeap at h
  rw [wp_zoom, wp_zoom, wp_bind, wp_get, wp_bind, wp_modify, wp_pure, wp_bind] at h
  unfold CapHeap.decref
  split at h
  · rename_i hone
    rw [wp_bind, wp_zoom, wp_zoom, wp_modify] at h
    obtain ⟨u, s', hrun, h⟩ := h
    rw [if_pos hone]
    refine ⟨s', (wp_pure _ _ _).mp h, ?_⟩
    exact keeps_inHeapVmm _ _ u s' hrun
  · rename_i hone
    rw [wp_pure] at h
    rw [if_neg hone]
    exact ⟨_, (wp_pure _ _ _).mp h, rfl⟩

/-- The table is new, and nothing else about the capabilities. -/
theorem wp_newTable {Q : Unit → InitState η ω → Prop}
    (h : wp (inCaps (onTable (capTableInit 16))) s Q) : ∃ s', Q () s' ∧
      SlotsInv s'.caps.table none [] ∧ (∀ id, s'.caps.table.caps id = none) ∧
      s'.caps.heap = s.caps.heap := by
  unfold inCaps onTable at h
  rw [wp_zoom, wp_zoom] at h
  obtain ⟨u, t, -, hq, hinv, hcap, -, hempty⟩ :=
    wp_and h (wp_capTableInit (by decide) s.caps.table)
  refine ⟨_, hq, hinv, fun id => ?_, rfl⟩
  refine caps_none fun hb => hb.2.1 (hempty _ ?_)
  rw [← hcap]
  exact hb.1

/-- An object of one reference that is shared and dropped once keeps its one reference. -/
theorem decref_incref {h : CapHeap ω} {self : Uptr} (hone : (h.obj self).refcount = 1) :
    (((h.incref self).decref self).obj self).refcount = 1 ∧
      ((h.incref self).decref self).log = h.log := by
  have htwo : ((h.incref self).obj self).refcount = 2 := by
    show (Function.update h.obj self { h.obj self with refcount := (h.obj self).refcount + 1 }
      self).refcount = 2
    rw [Function.update_self, hone]
    rfl
  unfold CapHeap.decref
  rw [if_neg (by rw [htwo]; decide)]
  refine ⟨?_, rfl⟩
  show (Function.update (h.incref self).obj self { (h.incref self).obj self with
    refcount := ((h.incref self).obj self).refcount - 1 } self).refcount = 1
  rw [Function.update_self, htwo]
  rfl

/-- The last reference is dropped. -/
theorem decref_last {h : CapHeap ω} {self : Uptr} (hone : (h.obj self).refcount = 1)
    (hrelease : (h.obj self).ops.release = none) :
    (h.decref self).log = h.log ++ [.deallocate self] := by
  have hops : ((h.lower self).obj self).ops.release = none := by
    show (Function.update h.obj self { h.obj self with refcount := (h.obj self).refcount - 1 }
      self).ops.release = none
    rw [Function.update_self]
    exact hrelease
  unfold CapHeap.decref
  rw [if_pos hone]
  unfold CapHeap.finish
  rw [hops]
  rfl

/-- **With assertions**: the table has the console, whose one reference it is. -/
theorem wp_capabilities_debug {Q : Unit → InitState η ω → Prop}
    (h : wp (initCapabilities env false) s Q) : ∃ s' console, Q () s' ∧
      s'.caps.table.caps = Function.update (fun _ => none) CONSOLE_CAP_ID
        (some ⟨console, CAP_RIGHT_WRITE, 0⟩) ∧
      (s'.caps.heap.obj console).refcount = 1 ∧ s'.caps.heap.log = s.caps.heap.log := by
  unfold initCapabilities at h
  rw [wp_bind] at h
  obtain ⟨_, s₁, -, hcaps, h⟩ := wp_allocate h
  rw [wp_bind] at h
  obtain ⟨s₂, h, hinv, hnone, hheap⟩ := wp_newTable h
  rw [wp_bind] at h
  obtain ⟨console, s₃, hne, h, htable, hlog, hcount, -⟩ := wp_makeConsoleCap h
  rw [wp_bind] at h
  unfold assertCall inCaps at h
  rw [if_neg (by decide), wp_bind, wp_zoom] at h
  have hinv₃ : SlotsInv s₃.caps.table none [] := by
    rw [htable]
    exact hinv
  obtain ⟨ok, u, -, h, heffect, -⟩ := wp_and h (wp_capTableSet hinv₃ hne)
  rw [wp_assert] at h
  obtain ⟨rfl, h⟩ := h
  obtain ⟨s', hq, hdecref⟩ := wp_capObjDecrefIn h
  cases heffect with
  | set ho hk hc he hid =>
      obtain ⟨hrefs, hkept⟩ := decref_incref hcount
      refine ⟨s', console, hq, ?_, ?_, ?_⟩
      · rw [hdecref]
        show (CapTable.fill _ _ console CAP_RIGHT_WRITE 0).caps = _
        rw [caps_fill hc ho, ← hid, caps_kept hk, htable]
        exact congrArg (fun m => Function.update m _ _) (funext hnone)
      · rw [hdecref]
        exact hrefs
      · rw [hdecref]
        refine hkept.trans (hlog.trans ?_)
        rw [hheap, hcaps]

/-- **Without assertions** the call of `cap_table_set` is gone: the table is empty, and the console
    has lost its only reference. -/
theorem wp_capabilities_release {Q : Unit → InitState η ω → Prop}
    (h : wp (initCapabilities env true) s Q) : ∃ s' console, Q () s' ∧
      (∀ id, s'.caps.table.caps id = none) ∧
      s'.caps.heap.log = s.caps.heap.log ++ [.deallocate console] := by
  unfold initCapabilities at h
  rw [wp_bind] at h
  obtain ⟨_, s₁, -, hcaps, h⟩ := wp_allocate h
  rw [wp_bind] at h
  obtain ⟨s₂, h, -, hnone, hheap⟩ := wp_newTable h
  rw [wp_bind] at h
  obtain ⟨console, s₃, -, h, htable, hlog, hcount, hrelease⟩ := wp_makeConsoleCap h
  rw [wp_bind] at h
  unfold assertCall at h
  rw [if_pos rfl, wp_pure] at h
  obtain ⟨s', h, hdecref⟩ := wp_capObjDecrefIn h
  refine ⟨s', console, h, fun id => ?_, ?_⟩
  · rw [hdecref]
    show s₃.caps.table.caps id = none
    rw [htable]
    exact hnone id
  · rw [hdecref]
    refine (decref_last hcount hrelease).trans ?_
    rw [hlog, hheap, hcaps]

/-- The capabilities of a new task: the console with the right to write, referenced once, and no
    slot with an object that is gone. -/
structure ConsoleOk (before after : CapState ω) : Prop where
  console : ∃ obj, after.table.caps CONSOLE_CAP_ID = some ⟨obj, CAP_RIGHT_WRITE, 0⟩ ∧
    (after.heap.obj obj).refcount = 1
  live : ∀ id c, after.table.caps id = some c →
    .deallocate c.obj ∉ after.heap.log.drop before.heap.log.length

theorem keeps_pushWords (stack : Uptr) (words : List U64) :
    Keeps (fun s : InitState η ω => s.caps) (pushWords stack words) := by
  induction words generalizing stack with
  | nil => exact keeps_pure _
  | cons word words ih =>
      refine keeps_bind (keeps_bind ?_ fun _ => keeps_pure _) ih
      intro s a t h
      cases h
      rfl

/-- Everything but the section of the capabilities leaves them alone. -/
theorem keeps_initContext (umem : Mem) (desc : TaskDesc) (kstack : TaskStack) (pmap : PageMap) :
    Keeps (fun s : InitState η ω => s.caps) (initContext env ndebug umem desc kstack pmap) := by
  unfold initContext
  dsimp only
  split
  · exact keeps_bind (keeps_pushWords _ _) fun _ => keeps_pure _
  · exact keeps_bind (keeps_zoom _ fun _ _ => rfl) fun _ =>
      keeps_bind (keeps_pushWords _ _) fun _ => keeps_pure _

theorem keeps_assertIn {σ τ : Type} {f : σ → τ} : Keeps f (assertIn ndebug cond text) := by
  intro s a t h
  have hw : wp (assertIn ndebug cond text) s fun _ t' => t' = t := ⟨a, t, h, rfl⟩
  exact congrArg _ (wp_assertIn hw).symm

theorem keeps_assertRelease :
    Keeps (fun s : InitState η ω => s.caps) (assertRelease cond text) := by
  intro s a t h
  have hw : wp (assertRelease cond text) s fun _ t' => t' = t := ⟨a, t, h, rfl⟩
  exact congrArg _ ((wp_assertRelease _ _ _ _).mp hw).2.symm

theorem keeps_allocateAligned :
    Keeps (fun s : InitState η ω => s.caps) (allocateAligned env ndebug sz align) :=
  keeps_bind keeps_assertIn fun _ => keeps_bind keeps_assertRelease fun _ =>
    keeps_bind keeps_assertRelease fun _ => keeps_bind (keeps_inHeapVmm _) fun _ =>
      keeps_bind keeps_assertRelease fun _ => keeps_pure _

theorem keeps_allocate : Keeps (fun s : InitState η ω => s.caps) (allocate env ndebug sz) :=
  keeps_bind keeps_assertIn fun _ => keeps_bind (keeps_inHeapVmm _) fun _ =>
    keeps_bind keeps_assertRelease fun _ => keeps_pure _

theorem keeps_initUstack (desc : TaskDesc) :
    Keeps (fun s : InitState η ω => s.caps) (initUstack env ndebug desc) := by
  unfold initUstack
  split
  · exact keeps_pure _
  · exact keeps_bind keeps_allocateAligned fun _ => keeps_pure _

theorem keeps_initMemory (desc : TaskDesc) (ustack : TaskStack) :
    Keeps (fun s : InitState η ω => s.caps) (initMemory env ndebug desc ustack) := by
  refine keeps_bind keeps_allocate fun _ => keeps_bind (keeps_zoom _ fun _ _ => rfl) fun pmap =>
    keeps_bind ?_ fun _ => keeps_pure _
  split
  · exact keeps_zoom _ fun _ _ => rfl
  · exact keeps_pure _

/-- A run of `task_init` is a run of its section of the capabilities, as far as they go. -/
theorem taskInitIn_capabilities {umem : Mem} {self : Uptr} {desc : TaskDesc} {t : TaskRecord}
    (hrun : taskInitIn env ndebug umem self desc s = .ok (t, s')) : ∃ s₁, s₁.caps = s.caps ∧
      wp (initCapabilities env ndebug) s₁ fun _ s₂ => s'.caps = s₂.caps := by
  have hw : wp (taskInitIn env ndebug umem self desc) s fun _ u => u.caps = s'.caps :=
    ⟨t, s', hrun, rfl⟩
  unfold taskInitIn at hw
  rw [wp_bind] at hw
  have hw := wp_assertIn hw
  rw [wp_bind] at hw
  have hw := wp_assertIn hw
  rw [wp_bind] at hw
  obtain ⟨kstack, s₁, h₁, hw⟩ := hw
  rw [wp_bind] at hw
  obtain ⟨ustack, s₂, h₂, hw⟩ := hw
  rw [wp_bind] at hw
  obtain ⟨pmap, s₃, h₃, hw⟩ := hw
  rw [wp_bind] at hw
  refine ⟨s₃, ?_, wp_mono hw fun _ s₄ hw => ?_⟩
  · have hk : Keeps (fun s : InitState η ω => s.caps) (initKstack env ndebug desc) :=
      keeps_bind keeps_allocateAligned fun _ => keeps_pure _
    exact (keeps_initMemory desc ustack _ _ _ h₃).trans
      ((keeps_initUstack desc _ _ _ h₂).trans (hk _ _ _ h₁))
  · rw [wp_bind] at hw
    obtain ⟨context, s₅, h₅, hw⟩ := hw
    exact ((wp_pure _ _ _).mp hw).symm.trans (keeps_initContext umem desc kstack pmap _ _ _ h₅)

/-- The two builds make the same task, and its capabilities are as they should be. -/
def BuildsAgree (env : KernelEnv η ω) (umem : Mem) (self : Uptr) (desc : TaskDesc)
    (s : InitState η ω) : Prop :=
  ∃ t s', taskInitIn env false umem self desc s = .ok (t, s') ∧
    taskInitIn env true umem self desc s = .ok (t, s') ∧ ConsoleOk s.caps s'.caps

theorem debug_task {umem : Mem} {self : Uptr} {desc : TaskDesc} {t : TaskRecord}
    (hrun : taskInitIn env false umem self desc s = .ok (t, s')) : ConsoleOk s.caps s'.caps := by
  obtain ⟨s₁, hcaps, hw⟩ := taskInitIn_capabilities hrun
  obtain ⟨s₂, console, hs, htable, hcount, hlog⟩ := wp_capabilities_debug hw
  rw [hs]
  refine ⟨⟨console, ?_, hcount⟩, fun id c _ hc => ?_⟩
  · rw [htable, Function.update_self]
  · rw [hlog, hcaps, List.drop_length] at hc
    cases hc

theorem release_task {umem : Mem} {self : Uptr} {desc : TaskDesc} {t : TaskRecord}
    (hrun : taskInitIn env true umem self desc s = .ok (t, s')) :
    (∀ id, s'.caps.table.caps id = none) ∧
      ∃ console, s'.caps.heap.log = s.caps.heap.log ++ [.deallocate console] := by
  obtain ⟨s₁, hcaps, hw⟩ := taskInitIn_capabilities hrun
  obtain ⟨s₂, console, hs, hnone, hlog⟩ := wp_capabilities_release hw
  rw [hs, hlog, hcaps]
  exact ⟨hnone, console, rfl⟩

theorem not_agree (env : KernelEnv η ω) (umem : Mem) (self : Uptr) (desc : TaskDesc)
    (s : InitState η ω) : ¬ BuildsAgree env umem self desc s := by
  intro hagree
  obtain ⟨t, s', -, hrun, hok⟩ := hagree
  obtain ⟨obj, hconsole, -⟩ := hok.console
  rw [(release_task hrun).1] at hconsole
  cases hconsole

/-- **The builds disagree, on every descriptor**: with assertions the task has its console; without
    them its table is empty, and the console is gone. -/
theorem builds_disagree (env : KernelEnv η ω) (umem : Mem) (self : Uptr) (desc : TaskDesc)
    (s : InitState η ω) :
    (∀ t s', taskInitIn env false umem self desc s = .ok (t, s') → ConsoleOk s.caps s'.caps) ∧
    (∀ t s', taskInitIn env true umem self desc s = .ok (t, s') →
      (∀ id, s'.caps.table.caps id = none) ∧
        ∃ console, s'.caps.heap.log = s.caps.heap.log ++ [.deallocate console]) ∧
    ¬ BuildsAgree env umem self desc s :=
  ⟨fun _ _ hrun => debug_task hrun, fun _ _ hrun => release_task hrun,
    not_agree env umem self desc s⟩

end TwoBuilds

/-! ## 8. The idle task -/

/-- A kernel whose heap has a place for each size. -/
def smallKernel : KernelEnv Unit Unit :=
  { heap :=
      { allocate := fun sz _ => pure (0x100000 + sz * 0x10000)
        deallocate := fun _ => pure () }
    kernelPageMap := ⟨.PML4, 0x1000⟩
    fiveLevel := false
    pages1gb := false
    kernelmodeTrampoline := 0x7000
    usermodeTrampoline := 0x8000
    consoleCapWrite := fun _ _ => pure 0 }

def smallStart : InitState Unit Unit :=
  { heap := ()
    vmm := { mem := fun _ => 0, free := [0x2000] }
    stack := fun _ => 0
    caps := freshCaps 0 }

/-- The descriptor of `scheduler_load`. -/
def idleTaskDesc : TaskDesc :=
  { taskId := 1, kstackSize := 16 * 1024, ustackSize := 0, entrypoint := ⟨0x9000, 0⟩
    pin := ⟨true, 0⟩, flags := TH_TASK_FLAG_KERNEL ||| TH_TASK_FLAG_DETACHED, uid := 0, gid := 0 }

theorem returns_makePageMap {fiveLevel : Bool} {kmap : PageMap} {s : VmmState} (h : s.free ≠ []) :
    wp (vmmMakePageMap fiveLevel kmap) s fun _ _ => True := by
  obtain ⟨f, rest, hfree⟩ := List.exists_cons_of_ne_nil h
  unfold vmmMakePageMap
  dsimp only
  rw [wp_bind, wp_pmmAllocFrame hfree, wp_bind]
  refine wp_mono (wp_forUp (fun _ _ => True) trivial fun i t _ _ => ?_) fun _ _ _ =>
    (wp_pure _ _ _).mpr trivial
  rw [wp_bind, wp_pdLoad, wp_pdStore]
  trivial

theorem returns_capabilities (ndebug : Bool) (s : InitState Unit Unit) :
    ∃ s', initCapabilities smallKernel ndebug s = .ok ((), s') := by
  cases ndebug
  · exact ⟨_, rfl⟩
  · exact ⟨_, rfl⟩

theorem returns_idle (ndebug : Bool) : ∃ t s,
    taskInitIn smallKernel ndebug (fun _ => 0) 0x5000 idleTaskDesc smallStart = .ok (t, s) := by
  have hkstack : ∃ k,
      initKstack smallKernel ndebug idleTaskDesc smallStart = .ok (k, smallStart) := by
    cases ndebug
    · exact ⟨_, rfl⟩
    · exact ⟨_, rfl⟩
  have hustack : ∃ u, initUstack smallKernel ndebug idleTaskDesc smallStart = .ok (u, smallStart) :=
    ⟨_, rfl⟩
  have hpmap : ∃ p,
      allocate smallKernel ndebug SIZEOF_PAGE_MAP smallStart = .ok (p, smallStart) := by
    cases ndebug
    · exact ⟨_, rfl⟩
    · exact ⟨_, rfl⟩
  obtain ⟨k, hk⟩ := hkstack
  obtain ⟨u, hu⟩ := hustack
  obtain ⟨p, hp⟩ := hpmap
  have hw : wp (taskInitIn smallKernel ndebug (fun _ => 0) 0x5000 idleTaskDesc) smallStart
      fun _ _ => True := by
    unfold taskInitIn
    rw [wp_bind, wp_assertIn_of (by decide), wp_bind, wp_assertIn_of (by decide), wp_bind,
      wp_of_eq hk, wp_bind, wp_of_eq hu, wp_bind]
    unfold initMemory inInitVmm
    rw [wp_bind, wp_of_eq hp, wp_bind, wp_zoom]
    refine wp_mono (returns_makePageMap (List.cons_ne_nil _ _)) fun pmap m _ => ?_
    rw [if_neg (by decide), wp_bind, wp_pure, wp_pure, wp_bind]
    obtain ⟨s₁, h₁⟩ := returns_capabilities ndebug { smallStart with vmm := m }
    rw [wp_of_eq h₁]
    exact ⟨_, _, rfl, trivial⟩
  obtain ⟨t, s, hrun, _⟩ := hw
  exact ⟨t, s, hrun⟩

/-- Both builds make the idle task, and not the same one. -/
theorem idle_differs : ∃ t s t' s',
    taskInitIn smallKernel false (fun _ => 0) 0x5000 idleTaskDesc smallStart = .ok (t, s) ∧
    taskInitIn smallKernel true (fun _ => 0) 0x5000 idleTaskDesc smallStart = .ok (t', s') ∧
    s.caps.table.caps CONSOLE_CAP_ID ≠ s'.caps.table.caps CONSOLE_CAP_ID ∧
    ¬ BuildsAgree smallKernel (fun _ => 0) 0x5000 idleTaskDesc smallStart := by
  obtain ⟨t, s, hrun⟩ := returns_idle false
  obtain ⟨t', s', hrun'⟩ := returns_idle true
  refine ⟨t, s, t', s', hrun, hrun', fun he => ?_, not_agree _ _ _ _ _⟩
  obtain ⟨obj, hconsole, -⟩ := (debug_task hrun).console
  rw [he, (release_task hrun').1] at hconsole
  cases hconsole

end Slightx
