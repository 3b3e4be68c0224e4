/-
  File:      Slightx/Proc/Scheduler.lean
  Subject:   The scheduler on several processors, one statement group after the other.

  Sources: kernel/proc/scheduler/controller.c, runqueue.c, sleeperlist.c, kernel/proc/task.c
  (`task_sleep`, `task_join`), kernel/proc/spawn.c, klibc/sync/waitqueue.c.

  A section under a spinlock is one step, and so is a group of statements between two of them.
  What a task is in the middle of is its `Pc`; a timer interrupt runs on top of the current task
  of its processor (`Tick`), and the task goes on when it is over.

  * the fields of `task` are maps from task pointers, those of `scheduler` maps from processors;
  * a `waitqueue_item` is named by the task whose `lifecycle.blocker` it is, and its waiter is the
    one `scheduler_make_waiter` makes for that task;
  * whether a sleeper's time has elapsed is an input of the step that asks;
  * an assertion that fails, and a walk round a cycle of links, is no step: nothing follows it
-/
import Slightx.Lib.DList

namespace Slightx

open Lib Function

/-! ## 1. Data -/

/-- A `task *`; `NULL` is `none`. -/
abbrev TaskPtr := Nat

abbrev Tid := BitVec 32

inductive TaskStateType where
  | new
  | ready
  | running
  | blocked
  | zombie
  deriving DecidableEq, Repr

structure Runqueue where
  head : Option TaskPtr
  tail : Option TaskPtr
  count : Nat
  deriving DecidableEq

structure Waitqueue where
  head : Option TaskPtr
  tail : Option TaskPtr
  deriving DecidableEq

/-- Who called `scheduler_yield`: what comes after it. -/
inductive After where
  | caller
  | slept
  | joined (target : TaskPtr)
  | killed
  deriving DecidableEq

/-- The three places where `scheduler_get_task_by_id` looks on each processor. -/
inductive FindPhase where
  | tasks
  | cleanup
  | current
  deriving DecidableEq

/-- The next step of a task. -/
inductive Pc where
  | away
  | spawnTid (detached : Bool)
  | spawnInit (tid : Tid) (detached : Bool)
  | spawnEnqueue (t : TaskPtr)
  | yieldEnter (k : After)
  | yieldEnqueue (k : After)
  | yieldDequeue (k : After)
  | yieldSwitch (k : After) (dequeued : Option TaskPtr)
  | yieldBack (k : After)
  | sleepAdd
  | sleepBlock
  | joinFind (tid : Tid) (cpuIdx : Nat) (phase : FindPhase)
  | joinCheck (target : TaskPtr)
  | joinAdd (target : TaskPtr)
  | joinRecheck (target : TaskPtr)
  | joinDel (target : TaskPtr)
  | joinLeave (target : TaskPtr)
  | joinBlock (target : TaskPtr)
  | killTake
  | killWake (entry : Option TaskPtr)
  | killQueue (entry : TaskPtr) (next : Option TaskPtr)
  | killEnqueue
  | killRelease
  deriving DecidableEq

/-- The next step of the timer interrupt on a processor. -/
inductive Tick where
  | off
  | sleepers (kept rest : List TaskPtr)
  | waking (kept : List TaskPtr) (t : TaskPtr) (rest : List TaskPtr)
  | cleaning (t : Option TaskPtr)
  deriving DecidableEq

structure Kernel (n : Nat) where
  /-- the task records the heap has handed out -/
  live : List TaskPtr
  id : TaskPtr → Tid
  pin : TaskPtr → Option Nat
  detached : TaskPtr → Bool
  state : TaskPtr → TaskStateType
  refcount : TaskPtr → Nat
  lastProcessorId : TaskPtr → Nat
  siblings : TaskPtr → Links TaskPtr
  blocker : TaskPtr → Links TaskPtr
  joiners : TaskPtr → Waitqueue
  pc : TaskPtr → Pc
  /-- the interrupt flag in the saved `rflags` -/
  rflags : TaskPtr → Bool
  tasks : Fin n → Runqueue
  cleanup : Fin n → Runqueue
  sleepers : Fin n → List TaskPtr
  current : Fin n → TaskPtr
  idle : Fin n → TaskPtr
  interrupts : Fin n → Bool
  tick : Fin n → Tick
  nextTaskId : Tid

variable {n : Nat}

/-! ## 2. Queues -/

def runqueueEnqueue (self : Runqueue) (t : TaskPtr) (siblings : TaskPtr → Links TaskPtr) :
    Runqueue × (TaskPtr → Links TaskPtr) :=
  ({ head := self.head.or (some t), tail := some t, count := self.count + 1 },
   linkBack siblings self.tail t)

def runqueueDequeue (self : Runqueue) (siblings : TaskPtr → Links TaskPtr) :
    Option TaskPtr × Runqueue × (TaskPtr → Links TaskPtr) :=
  match self.head with
  | none => (none, self, siblings)
  | some t =>
      let head := (siblings t).next
      let siblings₁ := match head with
        | some h => update siblings h { siblings h with prev := none }
        | none => siblings
      (some t, { head, tail := if head = none then none else self.tail, count := self.count - 1 },
       update siblings₁ t ⟨none, none⟩)

/-- What `runqueue_dequeue` does with a queue that has a task. -/
theorem runqueueDequeue_some {q : Runqueue} {siblings : TaskPtr → Links TaskPtr} {l : List TaskPtr}
    {x : TaskPtr} (hd : DList siblings q.head q.tail l) (hx : q.head = some x) :
    (siblings x).prev = none ∧ runqueueDequeue q siblings = (some x,
      { head := (siblings x).next, tail := if (siblings x).next = none then none else q.tail
        count := q.count - 1 }, update (bypass siblings x) x ⟨none, none⟩) := by
  rw [hx] at hd
  obtain ⟨m, rfl⟩ := dlist_head_some hd
  have hd₀ : DList siblings (some x) q.tail ([] ++ x :: m) := hd
  have hprev : (siblings x).prev = none := (dlist_at hd₀).1
  refine ⟨hprev, ?_⟩
  unfold runqueueDequeue bypass
  rw [hx]
  dsimp only
  rw [hprev]
  cases (siblings x).next <;> rfl

/-- The links `scheduler_cleanup` writes to take `t` out. -/
def cleanupRemove (self : Runqueue) (t : TaskPtr) (siblings : TaskPtr → Links TaskPtr) :
    Runqueue × (TaskPtr → Links TaskPtr) :=
  ({ head := if (siblings t).prev = none then (siblings t).next else self.head
     tail := if (siblings t).next = none then (siblings t).prev else self.tail
     count := self.count - 1 },
   bypass siblings t)

/-- The walk of `runqueue_find_by_id`, over at most `fuel` tasks. -/
def runqueueFindById (siblings : TaskPtr → Links TaskPtr) (id : TaskPtr → Tid) (tid : Tid) :
    Nat → Option TaskPtr → Option (Option TaskPtr)
  | _, none => some none
  | 0, some _ => none
  | fuel + 1, some t =>
      if id t = tid then some (some t)
      else runqueueFindById siblings id tid fuel (siblings t).next

def waitqueueAdd (self : Waitqueue) (entry : TaskPtr) (blocker : TaskPtr → Links TaskPtr) :
    Option (Waitqueue × (TaskPtr → Links TaskPtr)) :=
  if blocker entry = ⟨none, none⟩ then
    match self.tail with
    | none => some (⟨some entry, some entry⟩, update blocker entry ⟨none, none⟩)
    | some t => some ({ self with tail := some entry }, linkBack blocker (some t) entry)
  else none

def waitqueueDel (self : Waitqueue) (entry : TaskPtr) (blocker : TaskPtr → Links TaskPtr) :
    Waitqueue × (TaskPtr → Links TaskPtr) :=
  if (blocker entry).prev = none ∧ (blocker entry).next = none ∧ self.head ≠ some entry then
    (self, blocker)
  else
    ({ head := if (blocker entry).prev = none then (blocker entry).next else self.head
       tail := if (blocker entry).next = none then (blocker entry).prev else self.tail },
     update (bypass blocker entry) entry ⟨none, none⟩)

section Waitqueues

variable {q : Waitqueue} {x : TaskPtr} {blocker : TaskPtr → Links TaskPtr} {P : TaskPtr → Prop}
  {k : Nat}

theorem waitqueueAdd_some {r : Waitqueue × (TaskPtr → Links TaskPtr)}
    (ht : Threads blocker q.head q.tail P k) (hr : waitqueueAdd q x blocker = some r) :
    r.1 = ⟨q.head.or (some x), some x⟩ ∧ r.2 = linkBack blocker q.tail x := by
  obtain ⟨l, hd, _, _⟩ := ht
  unfold waitqueueAdd at hr
  split at hr
  · cases hq : q.tail with
    | none =>
        rw [hq] at hr
        obtain rfl := Option.some.inj hr
        have hnil : l = [] := List.getLast?_eq_none_iff.mp (hd.tail.symm.trans hq)
        have hhead : q.head = none := by rw [hd.head, hnil]; rfl
        exact ⟨by rw [hhead]; rfl, rfl⟩
    | some t =>
        rw [hq] at hr
        obtain rfl := Option.some.inj hr
        refine ⟨?_, rfl⟩
        have hne : q.head ≠ none := by
          intro he
          have hnil := List.head?_eq_none_iff.mp (hd.head.symm.trans he)
          have htail := hd.tail
          rw [hnil, hq] at htail
          cases htail
        cases hh : q.head with
        | none => exact absurd hh hne
        | some a => rfl
  · cases hr

theorem waitqueueDel_mem (ht : Threads blocker q.head q.tail P k) (hx : P x) :
    waitqueueDel q x blocker =
      ({ head := if (blocker x).prev = none then (blocker x).next else q.head
         tail := if (blocker x).next = none then (blocker x).prev else q.tail },
       update (bypass blocker x) x ⟨none, none⟩) := by
  unfold waitqueueDel
  rw [if_neg]
  rintro ⟨hprev, _, hhead⟩
  obtain ⟨l, hd, _, hl⟩ := ht
  obtain ⟨l₁, l₂, rfl⟩ := List.append_of_mem ((hl x).mpr hx)
  have hnil : l₁ = [] := List.getLast?_eq_none_iff.mp ((dlist_at hd).1.symm.trans hprev)
  refine hhead ?_
  rw [hd.head, hnil]
  rfl

end Waitqueues

/-! ## 3. Parts of steps -/

def Kernel.setPc (s : Kernel n) (t : TaskPtr) (p : Pc) : Kernel n :=
  { s with pc := update s.pc t p }

def Kernel.setState (s : Kernel n) (t : TaskPtr) (type : TaskStateType) : Kernel n :=
  { s with state := update s.state t type }

def Kernel.setInterrupts (s : Kernel n) (c : Fin n) (enabled : Bool) : Kernel n :=
  { s with interrupts := update s.interrupts c enabled }

def Kernel.setRefcount (s : Kernel n) (t : TaskPtr) (count : Nat) : Kernel n :=
  { s with refcount := update s.refcount t count }

/-- `runqueue_enqueue(&cpu_data->scheduler.tasks, t)`. -/
def Kernel.enqueueTask (s : Kernel n) (c : Fin n) (t : TaskPtr) : Kernel n :=
  let r := runqueueEnqueue (s.tasks c) t s.siblings
  { s with tasks := update s.tasks c r.1, siblings := r.2 }

/-- `runqueue_enqueue(&cpu_data->scheduler.cleanup, t)`. -/
def Kernel.enqueueCleanup (s : Kernel n) (c : Fin n) (t : TaskPtr) : Kernel n :=
  let r := runqueueEnqueue (s.cleanup c) t s.siblings
  { s with cleanup := update s.cleanup c r.1, siblings := r.2 }

def taskAcquire (s : Kernel n) (t : TaskPtr) : Option (Kernel n) :=
  if s.refcount t = 0 then none
  else some (s.setRefcount t (s.refcount t + 1))

def taskRelease (s : Kernel n) (t : TaskPtr) : Option (Kernel n) :=
  if s.refcount t = 0 then none
  else some (s.setRefcount t (s.refcount t - 1))

/-- The processor whose run queue `scheduler_wake_task` picks. -/
def wakeCpu (s : Kernel n) (t : TaskPtr) : Option (Fin n) :=
  let processorId := (s.pin t).getD (s.lastProcessorId t)
  if h : processorId < n then some ⟨processorId, h⟩ else none

/-- `task_init` and `task_set_ready` on the record `x`, for a task that is not pinned. -/
def taskInit (s : Kernel n) (x : TaskPtr) (tid : Tid) (detached : Bool) : Kernel n :=
  { s with
    live := x :: s.live
    id := update s.id x tid
    pin := update s.pin x none
    detached := update s.detached x detached
    state := update s.state x .ready
    refcount := update s.refcount x 1
    lastProcessorId := update s.lastProcessorId x 0
    siblings := update s.siblings x ⟨none, none⟩
    blocker := update s.blocker x ⟨none, none⟩
    joiners := update s.joiners x ⟨none, none⟩
    pc := update s.pc x .away
    rflags := update s.rflags x true }

/-! ## 4. Operations -/

inductive SchedOp where
  | spawn (detached : Bool)
  | yield
  | sleep
  | join (tid : Tid)
  | kill

/-- The current task of `c` starts an operation. The idle task runs `kmain` and
    `scheduler_idle_loop`, which spawn and yield. -/
def callOp (s : Kernel n) (c : Fin n) : SchedOp → Option (Kernel n)
  | .spawn detached => some (s.setPc (s.current c) (.spawnTid detached))
  | .yield => some ((s.setInterrupts c false).setPc (s.current c) (.yieldEnter .caller))
  | .sleep =>
      if s.current c = s.idle c then none
      else some ({ s.setInterrupts c false with
        blocker := update s.blocker (s.current c) ⟨none, none⟩ }.setPc (s.current c) .sleepAdd)
  | .join tid =>
      if s.current c = s.idle c then none
      else some (s.setPc (s.current c) (.joinFind tid 0 .tasks))
  | .kill =>
      if s.current c = s.idle c then none
      else some ((s.setState (s.current c) .zombie).setPc (s.current c) .killTake)

/-- One look of `scheduler_get_task_by_id`, by the task `t`. -/
def schedulerGetTaskById (s : Kernel n) (t : TaskPtr) (tid : Tid) (cpuIdx : Nat) (phase : FindPhase) :
    Option (Kernel n) :=
  if h : cpuIdx < n then
    match phase with
    | .tasks => do
        match ← runqueueFindById s.siblings s.id tid (s.live.length + 1) (s.tasks ⟨cpuIdx, h⟩).head with
        | some x => (·.setPc t (.joinCheck x)) <$> taskAcquire s x
        | none => some (s.setPc t (.joinFind tid cpuIdx .cleanup))
    | .cleanup => do
        match ← runqueueFindById s.siblings s.id tid (s.live.length + 1) (s.cleanup ⟨cpuIdx, h⟩).head with
        | some x => (·.setPc t (.joinCheck x)) <$> taskAcquire s x
        | none => some (s.setPc t (.joinFind tid cpuIdx .current))
    | .current =>
        let cur := s.current ⟨cpuIdx, h⟩
        if s.id cur = tid ∧ s.refcount cur ≠ 0 then
          some ((s.setRefcount cur (s.refcount cur + 1)).setPc t (.joinCheck cur))
        else some (s.setPc t (.joinFind tid (cpuIdx + 1) .tasks))
  else none

/-- The part of `scheduler_yield` behind `runqueue_dequeue`. -/
def schedulerSwitch (s : Kernel n) (c : Fin n) (k : After) (dequeued : Option TaskPtr) : Kernel n :=
  let old := s.current c
  let new := dequeued.getD (s.idle c)
  let s := { s with current := update s.current c new }
  let s := if new = s.idle c then s
    else { s.setState new .running with
      lastProcessorId := update s.lastProcessorId new c.val }
  let s := if old = new then s
    else { s.setInterrupts c (s.rflags new) with
      rflags := update s.rflags old (s.interrupts c) }
  s.setPc old (.yieldBack k)

/-- The next step of the current task of `c`. -/
def goStep (s : Kernel n) (c : Fin n) : Option (Kernel n) :=
  let t := s.current c
  match s.pc t with
  | .away => none
  | .spawnTid detached =>
      some ({ s with nextTaskId := s.nextTaskId + 1 }.setPc t (.spawnInit s.nextTaskId detached))
  | .spawnInit _ _ => none
  | .spawnEnqueue x => some ((s.enqueueTask c x).setPc t .away)
  | .yieldEnter k =>
      if s.state t = .running then some ((s.setState t .ready).setPc t (.yieldEnqueue k))
      else some (s.setPc t (.yieldDequeue k))
  | .yieldEnqueue k => some ((s.enqueueTask c t).setPc t (.yieldDequeue k))
  | .yieldDequeue k =>
      let r := runqueueDequeue (s.tasks c) s.siblings
      some ({ s with tasks := update s.tasks c r.2.1, siblings := r.2.2 }.setPc t
        (.yieldSwitch k r.1))
  | .yieldSwitch k dequeued => some (schedulerSwitch s c k dequeued)
  | .yieldBack .caller => some (s.setPc t .away)
  | .yieldBack .slept => some ((s.setInterrupts c true).setPc t .away)
  | .yieldBack (.joined x) => (·.setPc t .away) <$> taskRelease (s.setInterrupts c true) x
  | .yieldBack .killed => none
  | .sleepAdd =>
      some ({ s with sleepers := update s.sleepers c (s.sleepers c ++ [t]) }.setPc t .sleepBlock)
  | .sleepBlock => some ((s.setState t .blocked).setPc t (.yieldEnter .slept))
  | .joinFind tid cpuIdx phase => schedulerGetTaskById s t tid cpuIdx phase
  | .joinCheck x =>
      if s.detached x then none
      else if s.state x = .zombie then (·.setPc t .away) <$> taskRelease s x
      else some ({ s with blocker := update s.blocker t ⟨none, none⟩ }.setPc t (.joinAdd x))
  | .joinAdd x => do
      let r ← waitqueueAdd (s.joiners x) t s.blocker
      some ({ s with joiners := update s.joiners x r.1, blocker := r.2 }.setPc t (.joinRecheck x))
  | .joinRecheck x =>
      if s.state x = .zombie then some (s.setPc t (.joinDel x))
      else some (s.setPc t (.joinBlock x))
  | .joinDel x =>
      let r := waitqueueDel (s.joiners x) t s.blocker
      some ({ s with joiners := update s.joiners x r.1, blocker := r.2 }.setPc t (.joinLeave x))
  | .joinLeave x => (·.setPc t .away) <$> taskRelease s x
  | .joinBlock x =>
      some (((s.setInterrupts c false).setState t .blocked).setPc t (.yieldEnter (.joined x)))
  | .killTake =>
      some ({ s with joiners := update s.joiners t ⟨none, none⟩ }.setPc t
        (.killWake (s.joiners t).head))
  | .killWake none => some ((s.setInterrupts c false).setPc t .killEnqueue)
  | .killWake (some e) =>
      some ({ s.setState e .ready with blocker := update s.blocker e ⟨none, none⟩ }.setPc t
        (.killQueue e (s.blocker e).next))
  | .killQueue e next => do
      let d ← wakeCpu s e
      some ((s.enqueueTask d e).setPc t (.killWake next))
  | .killEnqueue => some ((s.enqueueCleanup c t).setPc t .killRelease)
  | .killRelease => (·.setPc t (.yieldEnter .killed)) <$> taskRelease s t

/-- The next step of the timer interrupt on `c`: `sleeperlist_tick`, then `scheduler_cleanup`. -/
def tickStep (s : Kernel n) (c : Fin n) (expired : Bool) : Option (Kernel n) :=
  match s.tick c with
  | .off => none
  | .sleepers _ [] =>
      some { s with tick := update s.tick c (.cleaning (s.cleanup c).head) }
  | .sleepers kept (t :: rest) =>
      if expired then
        some { s.setState t .ready with tick := update s.tick c (.waking kept t rest) }
      else some { s with tick := update s.tick c (.sleepers (kept ++ [t]) rest) }
  | .waking kept t rest => do
      let d ← wakeCpu s t
      some { s.enqueueTask d t with
        sleepers := update s.sleepers c (kept ++ rest)
        tick := update s.tick c (.sleepers kept rest) }
  | .cleaning none => some { s with tick := update s.tick c .off }
  | .cleaning (some t) =>
      let next := (s.siblings t).next
      if s.refcount t = 0 then
        let r := cleanupRemove (s.cleanup c) t s.siblings
        some { s with
          cleanup := update s.cleanup c r.1
          siblings := r.2
          live := s.live.erase t
          tick := update s.tick c (.cleaning next) }
      else some { s with tick := update s.tick c (.cleaning next) }

/-! ## 5. Runs -/

/-- What happens on a processor: its task starts an operation, or goes on with it; the heap hands
    out the record `x` for a task to be spawned; code outside these operations sets its interrupt
    flag; the timer interrupt is taken, or goes on. -/
inductive SchedEvent (n : Nat) where
  | call (c : Fin n) (op : SchedOp)
  | go (c : Fin n)
  | alloc (c : Fin n) (x : TaskPtr)
  | flag (c : Fin n) (enabled : Bool)
  | tick (c : Fin n)
  | tock (c : Fin n) (expired : Bool)

def schedStep (s : Kernel n) : SchedEvent n → Option (Kernel n)
  | .call c op =>
      if s.tick c = .off ∧ s.pc (s.current c) = .away then callOp s c op else none
  | .go c => if s.tick c = .off then goStep s c else none
  | .alloc c x =>
      if s.tick c = .off ∧ x ∉ s.live then
        match s.pc (s.current c) with
        | .spawnInit tid detached =>
            some ((taskInit s x tid detached).setPc (s.current c) (.spawnEnqueue x))
        | _ => none
      else none
  | .flag c enabled =>
      if s.tick c = .off ∧ s.pc (s.current c) = .away then some (s.setInterrupts c enabled) else none
  | .tick c =>
      if s.tick c = .off ∧ s.interrupts c = true then
        some { s with tick := update s.tick c (.sleepers [] (s.sleepers c)) }
      else none
  | .tock c expired => tickStep s c expired

/-- A run from `s₀` whose steps all meet `P`. -/
inductive SchedRun (P : Kernel n → SchedEvent n → Prop) (s₀ : Kernel n) : Kernel n → Prop where
  | start : SchedRun P s₀ s₀
  | step {s s' : Kernel n} {e : SchedEvent n} (h : SchedRun P s₀ s) (hp : P s e)
      (hs : schedStep s e = some s') : SchedRun P s₀ s'

/-- After `scheduler_load` on every processor: the idle tasks run, and nothing is queued. -/
structure SchedLoaded (s : Kernel n) : Prop where
  live : s.live = (List.finRange n).map s.idle
  apart : ∀ c d, s.idle c = s.idle d → c = d
  current : s.current = s.idle
  state : ∀ c, s.state (s.idle c) = .ready
  refcount : ∀ c, s.refcount (s.idle c) = 1
  pc : ∀ c, s.pc (s.idle c) = .away
  joiners : ∀ c, s.joiners (s.idle c) = ⟨none, none⟩
  tasks : ∀ c, s.tasks c = ⟨none, none, 0⟩
  cleanup : ∀ c, s.cleanup c = ⟨none, none, 0⟩
  sleepers : ∀ c, s.sleepers c = []
  tick : ∀ c, s.tick c = .off

/-- The task to which the next step on `c` applies `runqueue_enqueue`. -/
def Kernel.enqueues (s : Kernel n) (c : Fin n) : Option TaskPtr :=
  match s.tick c with
  | .waking _ t _ => some t
  | .off =>
      match s.pc (s.current c) with
      | .spawnEnqueue x => some x
      | .yieldEnqueue _ => some (s.current c)
      | .killQueue e _ => some e
      | .killEnqueue => some (s.current c)
      | _ => none
  | _ => none

/-- The task is linked in a run queue, or in a cleanup queue. -/
def Kernel.Queued (s : Kernel n) (c : Fin n) (t : TaskPtr) : Prop :=
  Reaches s.siblings t (s.tasks c).head

def Kernel.Cleaned (s : Kernel n) (c : Fin n) (t : TaskPtr) : Prop :=
  Reaches s.siblings t (s.cleanup c).head

def Kernel.Linked (s : Kernel n) (t : TaskPtr) : Prop :=
  ∃ c, s.Queued c t ∨ s.Cleaned c t

end Slightx
