/-
  File:      Slightx/Proc/TickLocks.lean
  Subject:   The locks of the timer interrupt, and the code it interrupts.

  Sources: kernel/proc/scheduler/*.c, kernel/proc/task.c, spawn.c, syscall.c, syscall-stub.asm,
  capabilities.c, kernel/mem/heap.c, pmm.c, vmm.c, kernel/main.c, klibc/sync/waitqueue.c,
  klibc/io/log.c, vendor/liballoc.

  What each function does to spinlocks and to the interrupt flag: its branches and loops are there,
  their conditions are not, so these processors can do whatever the kernel can, and more. A panic
  and a fault of the kernel itself halt the processor: such code just does not go on.

  * `schedulerTick` -- the handler; it takes the locks of `KernelLock.ofTick`, and leaves the flag
    cleared;
  * `KernelEntry.code` -- the ways into the kernel;
  * **`tick_meets_nothing`** -- the handler never waits for the code beneath it where that code
    takes the handler's locks with interrupts off, and a step that does not lets it meet one;
  * **`masked_iff`** -- the entries that do, whatever they do: a fault of a user task, a sleep, the
    start of a processor, and the system calls that take none of these locks; processors that enter
    the kernel in these ways only never get stuck (`masked_never_stuck`);
  * `tick_waits_below` -- one processor: the interrupt comes while `task_mmap` has the lock of the
    heap, and frees a task
-/
import Slightx.Lib.LockCode

namespace Slightx.Locks

open Lib LockCode Function

variable {n : Nat}

/-! ## 1. Locks -/

/-- The spinlocks: one of a kind, of each processor, or of each task. -/
inductive KernelLock (n : Nat) where
  | sleepers (c : Fin n)
  | tasks (c : Fin n)
  | cleanup (c : Fin n)
  | heap
  | vmm
  | pmm
  | tlbShootdown
  | scheduler
  | syncpoint
  | log
  | console
  | capabilities (t : Nat)
  | joiners (t : Nat)
  deriving DecidableEq

/-- The locks `scheduler_tick` takes. -/
def KernelLock.ofTick : KernelLock n → Bool
  | sleepers _ => true
  | tasks _ => true
  | heap => true
  | vmm => true
  | pmm => true
  | _ => false

/-- Code of the kernel, as far as it concerns spinlocks and the interrupt flag. -/
abbrev KernelCode (n : Nat) := LockCode (KernelLock n)

/-! ## 2. Memory -/

/-- The search in the bitmap, and the bits it sets. -/
def pmmTryAlloc : KernelCode n := under .pmm skip

/-- `pmm_try_alloc`, with a panic instead of the null pointer. -/
def pmmAlloc : KernelCode n := pmmTryAlloc

/-- The bits are cleared. -/
def pmmFree : KernelCode n := under .pmm skip

/-- The kernel's page map has a lock, a task's has none. -/
def vmmLocked (kernel : Bool) (p : KernelCode n) : KernelCode n :=
  if kernel then under .vmm p else p

/-- A frame for each table that is missing. -/
def vmmMap (kernel : Bool) : KernelCode n := vmmLocked kernel (loop pmmAlloc)

/-- The tables stay, so no frame is given back. -/
def vmmUnmap (kernel : Bool) : KernelCode n := vmmLocked kernel skip

/-- It reads tables only. -/
def vmmTranslate (kernel : Bool) : KernelCode n := vmmLocked kernel skip

/-- One processor has nobody to tell. -/
def vmmShootdownRange : KernelCode n := maybe (under .tlbShootdown skip)

/-- The frame of the directory. -/
def vmmMakePageMap : KernelCode n := pmmAlloc

/-- The frames of the tables, the directory last. -/
def vmmDestroyPageMap : KernelCode n := maybe (all [loop pmmFree, pmmFree])

/-- A text goes to the serial line under one lock. -/
def consoleWrite : KernelCode n := under .console skip

/-- A line of the log, in pieces. -/
def vklog : KernelCode n := under .log (loop consoleWrite)

/-- The pages of a block, and the way back when there are not enough. -/
def liballocAlloc : KernelCode n :=
  maybe (all [loop (all [pmmAlloc, vmmMap true]),
    maybe (all [pmmAlloc, vklog, loop (all [vmmTranslate true, vmmUnmap true, pmmFree])])])

/-- The pages of a block that is empty. -/
def liballocFree : KernelCode n :=
  maybe (loop (all [vmmTranslate true, vmmUnmap true, pmmFree]))

/-- A block of the heap, which grows where none fits. -/
def malloc : KernelCode n := under .heap (maybe liballocAlloc)

/-- The null pointer is left alone. -/
def free : KernelCode n := maybe (under .heap (maybe liballocFree))

/-- `free` for no bytes, `malloc` for no block; else the size is read, and the bytes move. -/
def realloc : KernelCode n := oneOf [free, malloc, all [under .heap skip, malloc, free]]

/-- Nothing is asked for where the size is zero. -/
def heapAllocate : KernelCode n := maybe malloc

/-- By the old and the new size one of three calls. -/
def heapReallocate : KernelCode n := oneOf [heapAllocate, free, realloc]

/-- `free`, whatever the size. -/
def heapDeallocate : KernelCode n := free

/-! ## 3. Capabilities and tasks -/

/-- No kind of object has a `release`. -/
def capObjDecref : KernelCode n := maybe heapDeallocate

/-- The first slots. -/
def capTableInit : KernelCode n := heapAllocate

/-- The table grows up to the slot. -/
def capTableSet (t : Nat) : KernelCode n := under (.capabilities t) (loop heapReallocate)

/-- The slot is read. -/
def capTableGet (t : Nat) : KernelCode n := under (.capabilities t) skip

/-- The slot is emptied under the lock, and the reference dropped behind it. -/
def capTableDel (t : Nat) : KernelCode n := all [under (.capabilities t) skip, maybe capObjDecref]

/-- All references, then the slots. -/
def capTableDeinit : KernelCode n := all [loop capObjDecref, heapDeallocate]

/-- The object is new. -/
def makeConsoleCap : KernelCode n := heapAllocate

/-- The stacks, the page map with the user stack, the capabilities, and the startup data. -/
def taskInit (t : Nat) : KernelCode n :=
  all [heapAllocate, maybe heapAllocate, heapAllocate, vmmMakePageMap,
    loop (all [vmmTranslate true, vmmMap false]),
    capTableInit, makeConsoleCap, capTableSet t, capObjDecref,
    maybe (all [loop (all [pmmAlloc, vmmMap false]), loop (vmmTranslate false)])]

/-- The capabilities, the records of the mappings, the page map, the stacks and the user's arguments. -/
def taskDeinit : KernelCode n :=
  all [capTableDeinit, loop heapDeallocate, vmmDestroyPageMap, heapDeallocate, heapDeallocate,
    maybe heapDeallocate]

/-- Frames for the pages and a record of them, or the way back. -/
def taskMmap : KernelCode n :=
  maybe (all [loop (all [pmmTryAlloc, vmmMap false]),
    alt (all [pmmTryAlloc, loop (all [vmmTranslate false, vmmUnmap false, pmmFree])]) heapAllocate])

/-- The pages of the mapping, the other processors, and its record. -/
def taskMunmap : KernelCode n :=
  maybe (all [maybe (all [loop (all [vmmTranslate false, vmmUnmap false, pmmFree]),
    vmmShootdownRange]), heapDeallocate])

/-! ## 4. The scheduler -/

/-- `runqueue_enqueue`, `runqueue_dequeue` and `runqueue_find_by_id` of the queue with this lock. -/
def runqueueEnqueue (self : KernelLock n) : KernelCode n := under self skip

/-- `runqueue_dequeue` -/
def runqueueDequeue (self : KernelLock n) : KernelCode n := under self skip

/-- `runqueue_find_by_id` -/
def runqueueFindById (self : KernelLock n) : KernelCode n := under self skip

/-- The counter of the tasks. -/
def schedulerGetNextTid : KernelCode n := under .scheduler skip

/-- The search ends where the task is found. -/
def schedulerLookAt : List (Fin n) → KernelCode n
  | [] => skip
  | d :: ds =>
      all [runqueueFindById (.tasks d),
        maybe (all [runqueueFindById (.cleanup d), maybe (schedulerLookAt ds)])]

/-- The queues of all processors, in their order. -/
def schedulerGetTaskById : KernelCode n := schedulerLookAt (List.finRange n)

/-- The queue of the processor the task belongs to. -/
def schedulerWakeTask : KernelCode n :=
  oneOf ((List.finRange n).map fun d => runqueueEnqueue (.tasks d))

/-- The caller waits for task `t`. -/
def waitqueueAdd (t : Nat) : KernelCode n := under (.joiners t) skip

/-- It does not wait any more. -/
def waitqueueDel (t : Nat) : KernelCode n := under (.joiners t) skip

/-- The list is taken off under the lock, and its tasks are woken behind it. -/
def waitqueueWakeAll (t : Nat) : KernelCode n :=
  all [under (.joiners t) skip, loop schedulerWakeTask]

/-- The record of the sleeper. -/
def sleeperlistAdd (c : Fin n) : KernelCode n := all [heapAllocate, under (.sleepers c) skip]

/-- Tasks are woken and their records freed under the lock of the list. -/
def sleeperlistTick (c : Fin n) : KernelCode n :=
  under (.sleepers c) (loop (maybe (all [maybe schedulerWakeTask, heapDeallocate])))

/-- Tasks that are through and that nobody refers to. -/
def schedulerCleanup : KernelCode n := loop (maybe (all [taskDeinit, heapDeallocate]))

/-- **The handler.** -/
def schedulerTick (c : Fin n) : KernelCode n := all [sleeperlistTick c, schedulerCleanup]

/-- The caller goes to the back of the queue, and the first of it runs. -/
def schedulerYield (c : Fin n) : KernelCode n :=
  all [cli, maybe (runqueueEnqueue (.tasks c)), runqueueDequeue (.tasks c), maybe swap]

/-- Whoever waits is woken, and the task goes to the tasks that are through. -/
def schedulerKillCurrentTask (c : Fin n) (t : Nat) : KernelCode n :=
  all [waitqueueWakeAll t, cli, runqueueEnqueue (.cleanup c), schedulerYield c]

/-- The loop from behind its first `hlt`, and what is before it. -/
def schedulerIdleLoop (c : Fin n) : KernelCode n :=
  all [sti, loop (all [cli, schedulerYield c, sti])]

/-- The idle task of the processor. -/
def schedulerLoad (t : Nat) : KernelCode n := all [heapAllocate, under .scheduler skip, taskInit t]

/-- From `cli` on nothing interrupts until another task runs. -/
def taskSleep (c : Fin n) : KernelCode n := all [cli, sleeperlistAdd c, schedulerYield c, sti]

/-- A target that ended in the meantime is not waited for. -/
def taskJoin (c : Fin n) (target : Nat) : KernelCode n :=
  all [schedulerGetTaskById, maybe (all [waitqueueAdd target,
    alt (waitqueueDel target) (all [cli, schedulerYield c, sti])])]

/-- The record and the pages of the code, the task, and its place in the queue. -/
def spawnUserTask (c : Fin n) (t : Nat) : KernelCode n :=
  all [heapAllocate, loop pmmAlloc, heapAllocate, schedulerGetNextTid, taskInit t,
    loop (vmmMap false), heapDeallocate, runqueueEnqueue (.tasks c)]

/-- The pieces of a text: the first is allocated, the others move it. -/
def strSplit : KernelCode n := loop (oneOf [heapAllocate, heapReallocate])

/-! ## 5. The ways into the kernel -/

/-- What a processor comes into the kernel for. -/
inductive KernelEntry where
  | exit (t : Nat)
  | spawn (t : Nat)
  | join (target : Nat)
  | mmap
  | munmap
  | capread (t : Nat)
  | capwrite (t : Nat)
  | capinvoke (t : Nat)
  | capmap (t : Nat)
  | capctl (t : Nat)
  | caprelease (t : Nat)
  /-- a number that is not one of a system call -/
  | unknown
  /-- `pagefault_handler`, for a fault of a user task -/
  | pagefault (t : Nat)
  /-- `task_sleep`, by a kernel task -/
  | sleep
  /-- `kmain` from `heap_load` on, with the idle task `t` and the first user tasks `ts` -/
  | kmain (t : Nat) (ts : List Nat)
  | apStart (t : Nat)

/-- The gate has cleared the flag; `sysret` sets it to what it was. -/
def syscallEntryStub (handler : KernelCode n) : KernelCode n := all [sti, handler, cli, sti]

/-- The code behind each of them. -/
def KernelEntry.code (c : Fin n) : KernelEntry → KernelCode n
  | exit t => syscallEntryStub (schedulerKillCurrentTask c t)
  | spawn t => syscallEntryStub (maybe (spawnUserTask c t))
  | join target => syscallEntryStub (taskJoin c target)
  | mmap => syscallEntryStub (maybe taskMmap)
  | munmap => syscallEntryStub (maybe taskMunmap)
  | capread t => syscallEntryStub (maybe (capTableGet t))
  | capwrite t => syscallEntryStub (maybe (all [capTableGet t, maybe consoleWrite]))
  | capinvoke t => syscallEntryStub (maybe (capTableGet t))
  | capmap t => syscallEntryStub (maybe (capTableGet t))
  | capctl t => syscallEntryStub (capTableGet t)
  | caprelease t => syscallEntryStub (capTableDel t)
  | unknown => syscallEntryStub vklog
  | pagefault t => all [loop vklog, schedulerKillCurrentTask c t]
  | sleep => all [sti, taskSleep c]
  | kmain t ts =>
      -- `heap_load`, and `mp_load`, which allocates the records of the processors
      all [pmmAlloc, heapAllocate, schedulerLoad t, sti, loop (under .syncpoint skip), loop vklog,
        all (ts.map fun u => all [loop vklog, strSplit, spawnUserTask c u, loop heapDeallocate]),
        schedulerYield c, schedulerIdleLoop c]
  | apStart t => all [schedulerLoad t, sti, under .syncpoint skip, schedulerIdleLoop c]

/-- The processors run this code and this handler. -/
def kernel (n : Nat) : LockKernel n KernelEntry (KernelLock n) where
  entry := fun c e => e.code c
  tick := schedulerTick

/-- The entries that take the handler's locks with interrupts off only. -/
def KernelEntry.masked : KernelEntry → Bool
  | exit _ => false
  | spawn _ => false
  | join _ => false
  | mmap => false
  | munmap => false
  | caprelease _ => false
  | kmain _ ts => ts.isEmpty
  | _ => true

/-! ## 6. Code that follows the rule -/

section Rule

variable {c : Fin n} {held : List (KernelLock n)} {i : Bool} {st : Bool × List (KernelLock n)}
  {t : Nat}

/-- With interrupts off all is as before. -/
abbrev Off (held : List (KernelLock n)) (p : KernelCode n) : Prop :=
  Stays KernelLock.ofTick (false, held) p

theorem off_pmmFree : Off held pmmFree := stays_under rfl stays_skip

theorem off_pmmTryAlloc : Off held pmmTryAlloc := stays_under rfl stays_skip

theorem off_vmmLocked {p : KernelCode n} (h : ∀ held, Off held p) (kernel : Bool) :
    Off held (vmmLocked kernel p) := by
  cases kernel
  · exact h held
  · exact stays_under rfl (h _)

theorem off_vmmMap (kernel : Bool) : Off held (vmmMap kernel) :=
  off_vmmLocked (fun _ => stays_loop off_pmmTryAlloc) kernel

theorem off_vmmUnmap (kernel : Bool) : Off held (vmmUnmap kernel) :=
  off_vmmLocked (fun _ => stays_skip) kernel

theorem off_vmmTranslate (kernel : Bool) : Off held (vmmTranslate kernel) :=
  off_vmmLocked (fun _ => stays_skip) kernel

theorem off_vmmDestroyPageMap : Off held vmmDestroyPageMap :=
  stays_maybe (passes_cons (stays_loop off_pmmFree) (passes_cons off_pmmFree passes_nil))

theorem stays_vklog : Stays KernelLock.ofTick st vklog :=
  stays_under_off rfl (stays_loop (stays_under_off rfl stays_skip))

/-- The way back over the pages of a block. -/
theorem off_unmapped (kernel : Bool) :
    Off held (loop (all [vmmTranslate kernel, vmmUnmap kernel, pmmFree])) :=
  stays_loop (passes_cons (off_vmmTranslate kernel) (passes_cons (off_vmmUnmap kernel)
    (passes_cons off_pmmFree passes_nil)))

theorem off_liballocAlloc : Off held liballocAlloc := by
  refine stays_maybe (passes_cons (stays_loop ?_) (passes_cons (stays_maybe ?_) passes_nil))
  · exact passes_cons off_pmmTryAlloc (passes_cons (off_vmmMap true) passes_nil)
  · exact passes_cons off_pmmTryAlloc (passes_cons stays_vklog (passes_cons (off_unmapped true)
      passes_nil))

theorem off_malloc : Off held malloc := stays_under rfl (stays_maybe off_liballocAlloc)

theorem off_heapAllocate : Off held heapAllocate := stays_maybe off_malloc

theorem off_heapDeallocate : Off held heapDeallocate :=
  stays_maybe (stays_under rfl (stays_maybe (stays_maybe (off_unmapped true))))

theorem off_heapReallocate : Off held heapReallocate := by
  have hread : Off held (under .heap skip) := stays_under rfl stays_skip
  refine stays_alt off_heapAllocate (stays_alt off_heapDeallocate (stays_alt ?_ stays_skip))
  refine stays_alt off_heapDeallocate (stays_alt off_malloc (stays_alt ?_ stays_skip))
  exact passes_cons hread (passes_cons off_malloc (passes_cons off_heapDeallocate passes_nil))

theorem off_capObjDecref : Off held capObjDecref := stays_maybe off_heapDeallocate

theorem off_capTableDeinit : Off held capTableDeinit :=
  passes_cons (stays_loop off_capObjDecref) (passes_cons off_heapDeallocate passes_nil)

theorem off_capTableSet : Off held (capTableSet t) :=
  stays_under_off rfl (stays_loop off_heapReallocate)

theorem stays_capTableGet : Stays KernelLock.ofTick st (capTableGet t) :=
  stays_under_off rfl stays_skip

theorem off_taskInit : Off held (taskInit t) := by
  refine passes_cons off_heapAllocate (passes_cons (stays_maybe off_heapAllocate)
    (passes_cons off_heapAllocate (passes_cons off_pmmTryAlloc (passes_cons (stays_loop ?_)
    (passes_cons off_heapAllocate (passes_cons off_heapAllocate (passes_cons off_capTableSet
    (passes_cons off_capObjDecref (passes_cons (stays_maybe ?_) passes_nil)))))))))
  · exact passes_cons (off_vmmTranslate true) (passes_cons (off_vmmMap false) passes_nil)
  · refine passes_cons (stays_loop ?_) (passes_cons (stays_loop (off_vmmTranslate false))
      passes_nil)
    exact passes_cons off_pmmTryAlloc (passes_cons (off_vmmMap false) passes_nil)

theorem off_taskDeinit : Off held taskDeinit :=
  passes_cons off_capTableDeinit (passes_cons (stays_loop off_heapDeallocate)
    (passes_cons off_vmmDestroyPageMap (passes_cons off_heapDeallocate
    (passes_cons off_heapDeallocate (passes_cons (stays_maybe off_heapDeallocate) passes_nil)))))

theorem off_runqueue {q : KernelLock n} (hq : q.ofTick = true) : Off held (under q skip) :=
  stays_under hq stays_skip

theorem off_schedulerWakeTask : Off held schedulerWakeTask := by
  refine stays_oneOf fun p hp => ?_
  obtain ⟨d, _, rfl⟩ := List.mem_map.mp hp
  exact off_runqueue rfl

theorem off_waitqueueWakeAll : Off held (waitqueueWakeAll t) :=
  passes_cons (stays_under_off rfl stays_skip) (passes_cons (stays_loop off_schedulerWakeTask)
    passes_nil)

theorem off_sleeperlistTick : Off held (sleeperlistTick c) :=
  stays_under rfl (stays_loop (stays_maybe (passes_cons (stays_maybe off_schedulerWakeTask)
    (passes_cons off_heapDeallocate passes_nil))))

/-- **The handler follows the rule.** -/
theorem off_schedulerTick : Off held (schedulerTick c) :=
  passes_cons off_sleeperlistTick (passes_cons (stays_loop (stays_maybe (passes_cons off_taskDeinit
    (passes_cons off_heapDeallocate passes_nil)))) passes_nil)

/-- **`scheduler_yield` follows the rule**, from wherever it is called without a lock. -/
theorem passes_schedulerYield : Passes KernelLock.ofTick (i, []) (schedulerYield c) (false, []) :=
  passes_cons passes_cli (passes_cons (stays_maybe (off_runqueue rfl)) (passes_cons
    (off_runqueue rfl) (passes_cons (stays_maybe stays_swap) passes_nil)))

theorem off_schedulerKillCurrentTask : Off [] (schedulerKillCurrentTask c t) :=
  passes_cons off_waitqueueWakeAll (passes_cons passes_cli (passes_cons
    (stays_under_off rfl stays_skip) (passes_cons passes_schedulerYield passes_nil)))

theorem passes_schedulerIdleLoop :
    Passes KernelLock.ofTick (i, []) (schedulerIdleLoop c) (true, []) :=
  passes_cons passes_sti (passes_cons (stays_loop (passes_cons passes_cli
    (passes_cons passes_schedulerYield (passes_cons passes_sti passes_nil)))) passes_nil)

theorem off_schedulerLoad : Off held (schedulerLoad t) :=
  passes_cons off_heapAllocate (passes_cons (stays_under_off rfl stays_skip)
    (passes_cons off_taskInit passes_nil))

theorem passes_taskSleep : Passes KernelLock.ofTick (i, []) (taskSleep c) (true, []) :=
  passes_cons passes_cli (passes_cons (passes_cons off_heapAllocate (passes_cons (off_runqueue rfl)
    passes_nil)) (passes_cons passes_schedulerYield (passes_cons passes_sti passes_nil)))

/-- A system call that leaves the handler's locks alone. -/
theorem passes_stub {handler : KernelCode n} (h : Stays KernelLock.ofTick (true, []) handler) :
    Passes KernelLock.ofTick (false, []) (syscallEntryStub handler) (true, []) :=
  passes_cons passes_sti (passes_cons h (passes_cons passes_cli (passes_cons passes_sti
    passes_nil)))

end Rule

/-! ## 7. Code that breaks it -/

section Break

variable {c : Fin n} {t : Nat}

/-- With interrupts on, and no lock. -/
abbrev Open (p : KernelCode n) : Prop := Breaks KernelLock.ofTick (true, []) p

theorem open_heapAllocate : Open (n := n) heapAllocate := breaks_alt (breaks_under rfl)

theorem open_heapDeallocate : Open (n := n) heapDeallocate := breaks_alt (breaks_under rfl)

theorem open_pmmTryAlloc : Open (n := n) pmmTryAlloc := breaks_under rfl

theorem open_schedulerWakeTask (c : Fin n) : Open (n := n) schedulerWakeTask := by
  unfold schedulerWakeTask
  have hne : List.finRange n ≠ [] := List.ne_nil_of_mem (List.mem_finRange c)
  cases hl : List.finRange n with
  | nil => exact absurd hl hne
  | cons d ds => exact breaks_alt (breaks_under rfl)

theorem open_schedulerGetTaskById (c : Fin n) : Open (n := n) schedulerGetTaskById := by
  unfold schedulerGetTaskById
  have hne : List.finRange n ≠ [] := List.ne_nil_of_mem (List.mem_finRange c)
  cases hl : List.finRange n with
  | nil => exact absurd hl hne
  | cons d ds => exact breaks_head (breaks_under rfl)

theorem breaks_stub {handler : KernelCode n} (h : Open handler) :
    Breaks KernelLock.ofTick (false, []) (syscallEntryStub handler) :=
  breaks_tail passes_sti (breaks_head h)

theorem open_spawnUserTask : Open (spawnUserTask c t) := breaks_head open_heapAllocate

theorem not_safe {p : KernelCode n} (h : Breaks KernelLock.ofTick (false, []) p) :
    ¬ SafeCode KernelLock.ofTick (false, []) [p] := by
  rintro ⟨st, hp, _⟩
  rw [show p.check KernelLock.ofTick (false, []) = none from h] at hp
  cases hp

end Break

/-! ## 8. Runs -/

section Runs

variable {c : Fin n} {s s₀ : LockSys n (KernelLock n)} {es : List (LockEvent n KernelEntry)}

theorem safe_of {p : KernelCode n} {i : Bool} (h : Passes KernelLock.ofTick (false, []) p (i, [])) :
    SafeCode KernelLock.ofTick (false, []) [p] :=
  ⟨_, h, rfl⟩

/-- **The entries that follow the rule.** -/
theorem masked_iff (e : KernelEntry) :
    SafeCode KernelLock.ofTick (false, []) [e.code c] ↔ e.masked = true := by
  have hget : ∀ t, Stays KernelLock.ofTick (true, []) (capTableGet (n := n) t) :=
    fun t => stays_capTableGet
  cases e with
  | exit t =>
      refine iff_of_false (not_safe (breaks_stub (breaks_head ?_))) (by simp [KernelEntry.masked])
      exact breaks_tail (stays_under_off rfl stays_skip)
        (breaks_head (breaks_loop (open_schedulerWakeTask c)))
  | spawn t =>
      exact iff_of_false (not_safe (breaks_stub (breaks_alt open_spawnUserTask)))
        (by simp [KernelEntry.masked])
  | join x =>
      exact iff_of_false (not_safe (breaks_stub (breaks_head (open_schedulerGetTaskById c))))
        (by simp [KernelEntry.masked])
  | mmap =>
      refine iff_of_false (not_safe (breaks_stub (breaks_alt (breaks_alt (breaks_head ?_)))))
        (by simp [KernelEntry.masked])
      exact breaks_loop (breaks_head open_pmmTryAlloc)
  | munmap =>
      refine iff_of_false (not_safe (breaks_stub (breaks_alt (breaks_alt (breaks_head ?_)))))
        (by simp [KernelEntry.masked])
      refine breaks_alt (breaks_head (breaks_loop ?_))
      exact breaks_tail stays_skip (breaks_tail stays_skip (breaks_head (breaks_under rfl)))
  | capread t | capinvoke t | capmap t =>
      exact iff_of_true (safe_of (passes_stub (stays_maybe (hget t)))) rfl
  | capwrite t =>
      refine iff_of_true (safe_of (passes_stub (stays_maybe (passes_cons (hget t) ?_)))) rfl
      exact passes_cons (stays_maybe (stays_under_off rfl stays_skip)) passes_nil
  | capctl t => exact iff_of_true (safe_of (passes_stub (hget t))) rfl
  | caprelease t =>
      refine iff_of_false (not_safe (breaks_stub (breaks_tail (stays_under_off rfl stays_skip) ?_)))
        (by simp [KernelEntry.masked])
      exact breaks_head (breaks_alt (breaks_alt open_heapDeallocate))
  | unknown => exact iff_of_true (safe_of (passes_stub stays_vklog)) rfl
  | pagefault t =>
      refine iff_of_true (safe_of (i := false) ?_) rfl
      exact passes_cons (stays_loop stays_vklog)
        (passes_cons off_schedulerKillCurrentTask passes_nil)
  | sleep =>
      exact iff_of_true (safe_of (passes_cons passes_sti (passes_cons passes_taskSleep passes_nil)))
        rfl
  | apStart t =>
      refine iff_of_true (safe_of (i := true) ?_) rfl
      exact passes_cons off_schedulerLoad (passes_cons passes_sti (passes_cons
        (stays_under_off rfl stays_skip) (passes_cons passes_schedulerIdleLoop passes_nil)))
  | kmain t ts =>
      cases ts with
      | nil =>
          refine iff_of_true (safe_of (i := true) ?_) rfl
          exact passes_cons off_pmmTryAlloc (passes_cons off_heapAllocate (passes_cons
            off_schedulerLoad (passes_cons passes_sti (passes_cons
            (stays_loop (stays_under_off rfl stays_skip)) (passes_cons (stays_loop stays_vklog)
            (passes_cons passes_nil (passes_cons passes_schedulerYield
            (passes_cons passes_schedulerIdleLoop passes_nil))))))))
      | cons u us =>
          refine iff_of_false (not_safe ?_) (by simp [KernelEntry.masked])
          refine breaks_tail off_pmmTryAlloc (breaks_tail off_heapAllocate (breaks_tail
            off_schedulerLoad (breaks_tail passes_sti (breaks_tail
            (stays_loop (stays_under_off rfl stays_skip)) (breaks_tail (stays_loop stays_vklog)
            (breaks_head (breaks_head ?_)))))))
          exact breaks_tail (stays_loop stays_vklog)
            (breaks_head (breaks_loop (breaks_alt open_heapAllocate)))

/-- The handler's locks are the ones of `ofTick`. -/
theorem schedulerTick_takes : ∀ l ∈ (schedulerTick c).takes, l.ofTick = true := by
  have hwake : ∀ l ∈ (schedulerWakeTask (n := n)).takes, l.ofTick = true := by
    intro l hl
    obtain ⟨p, hp, hl⟩ := takes_oneOf hl
    obtain ⟨d, _, rfl⟩ := List.mem_map.mp hp
    simp only [runqueueEnqueue, under, all, takes, List.append_nil, List.mem_singleton] at hl
    rw [hl]
    rfl
  have hfree : ∀ l ∈ (heapDeallocate (n := n)).takes, l.ofTick = true := by
    simp [heapDeallocate, free, liballocFree, vmmTranslate, vmmUnmap, vmmLocked, pmmFree,
      LockCode.takes, all, under, maybe, KernelLock.ofTick]
  simp only [schedulerTick, sleeperlistTick, schedulerCleanup, taskDeinit, capTableDeinit,
    capObjDecref, vmmDestroyPageMap, pmmFree, all, under, maybe, takes, List.append_nil,
    List.mem_append, List.mem_singleton]
  intro l hl
  grind [KernelLock.ofTick]

theorem kernel_checked : Checked KernelLock.ofTick (kernel n) where
  tick := fun _ => safe_of off_schedulerTick
  takes := fun _ => schedulerTick_takes

/-- The run of entries that follow the rule follows it. -/
theorem masked_guarded (h₀ : LockBooted s₀)
    (hrun : Runs (lockStep (kernel n)) (fun _ e => ∀ c x, e = .enter c x → x.masked = true)
      s₀ es s) :
    Runs (lockStep (kernel n)) (Guarded (kernel n)) s₀ es s := by
  refine checked_guarded kernel_checked h₀ (runs_mono (fun _ e he => ?_) hrun)
  cases e with
  | enter d x => exact (masked_iff x).mpr (he d x rfl)
  | _ => exact True.intro

/-- **The handler never waits for the code beneath it** in any run that takes the handler's locks
    with interrupts off; behind the first step that does not, the handler can come while the code
    has one of its locks. -/
theorem tick_meets_nothing (h₀ : LockReady s₀)
    (hrun : Runs (lockStep (kernel n)) (Guarded (kernel n)) s₀ es s) :
    (∀ c, s.tick c ≠ none →
      (∀ l ∈ (schedulerTick c).takes, s.owner l ≠ some (c, false)) ∧ ¬ s.Stuck c) ∧
    ∀ e s', ¬ Guarded (kernel n) s e → lockStep (kernel n) s e = some s' →
      ∃ s'', lockStep (kernel n) s' (.tick e.cpu) = some s'' ∧
        ∃ l ∈ (schedulerTick e.cpu).takes, s''.owner l = some (e.cpu, false) := by
  refine ⟨fun c ht => ?_, fun e s' hg hs => ?_⟩
  · obtain ⟨hmeet, hstuck⟩ := run_guarded h₀ hrun ht
    exact ⟨fun l hl ho => hmeet l ⟨hl, ho⟩, hstuck⟩
  · obtain ⟨s'', hs'', l, hl, ho⟩ := not_guarded hg hs
    exact ⟨s'', hs'', l, hl, ho⟩

/-- **Entries that follow the rule never get stuck**, in any run of theirs on any processors. -/
theorem masked_never_stuck (h₀ : LockBooted s₀)
    (hrun : Runs (lockStep (kernel n)) (fun _ e => ∀ c x, e = .enter c x → x.masked = true)
      s₀ es s) :
    ∀ c, ¬ s.Stuck c := by
  intro c hstuck
  have ht : s.tick c ≠ none := by
    obtain ⟨l, k, htick, _⟩ := hstuck
    simp [htick]
  exact (run_guarded h₀.toLockReady (masked_guarded h₀ hrun) ht).2 hstuck

end Runs

/-! ## 9. Two runs of one processor -/

/-- Outside of the kernel. -/
def outside : LockSys 1 (KernelLock 1) where
  code := fun _ => []
  interrupts := fun _ => true
  parked := fun _ => []
  tick := fun _ => none
  owner := fun _ => none

theorem outside_booted : LockBooted outside :=
  ⟨⟨fun _ => rfl, fun _ => rfl⟩, fun _ => rfl, fun _ => rfl⟩

/-- `task_sleep`, up to the switch to another task, and the handler on top of that. -/
def sleepEvents : List (LockEvent 1 KernelEntry) :=
  .enter 0 .sleep :: (List.replicate 11 true ++ false :: List.replicate 35 true).map (.run 0) ++
    [.swap 0 0, .tick 0]

/-- Of the entries, only ones that follow the rule. -/
def entriesMasked : LockEvent 1 KernelEntry → Bool
  | .enter _ x => x.masked
  | _ => true

theorem tick_meets_nothing_sleep : ∃ s, exec (lockStep (kernel 1)) outside sleepEvents = some s ∧
    s.tick 0 ≠ none ∧ ¬ s.Stuck 0 := by
  have hend : ∃ s, execIf (lockStep (kernel 1)) (fun _ e => entriesMasked e) outside sleepEvents =
      some s ∧ exec (lockStep (kernel 1)) outside sleepEvents = some s ∧ s.tick 0 ≠ none :=
    ⟨_, rfl, rfl, nofun⟩
  obtain ⟨s, hs, hexec, ht⟩ := hend
  have hrun := masked_guarded outside_booted (runs_mono (fun _ e he c x hx => by
    subst hx
    exact he) (runs_execIf hs))
  exact ⟨s, hexec, ht, ((tick_meets_nothing outside_booted.toLockReady hrun).1 0 ht).2⟩

/-- A page for the caller of `task_mmap`, and the lock of the heap for the record of the mapping;
    the handler, no task to wake, and a capability of a task that is through. -/
def heapEvents : List (LockEvent 1 KernelEntry) :=
  .enter 0 .mmap ::
    (List.replicate 16 true ++ [false, true, false, true, false, true, true, true]).map (.run 0) ++
    .tick 0 :: (List.replicate 4 true ++ false :: List.replicate 13 true).map (.tock 0)

/-- **The handler waits for the code beneath it.** -/
theorem tick_waits_below : ¬ ∀ (n : Nat) (s₀ s : LockSys n (KernelLock n))
    (es : List (LockEvent n KernelEntry)), LockBooted s₀ →
    Runs (lockStep (kernel n)) (fun _ _ => True) s₀ es s → ∀ c, ¬ s.Stuck c := by
  intro h
  have hend : ∃ s, exec (lockStep (kernel 1)) outside heapEvents = some s ∧
      ∃ k, s.tick 0 = some (.acquire .heap :: k) ∧ s.owner .heap = some (0, false) :=
    ⟨_, rfl, _, rfl, rfl⟩
  obtain ⟨s, hs, k, htick, howner⟩ := hend
  exact h 1 outside s heapEvents outside_booted (runs_exec hs) 0 ⟨_, k, htick, howner⟩

end Slightx.Locks
