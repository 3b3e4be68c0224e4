/-
  File:      Slightx/Proc/Lookup.lean
  Subject:   `scheduler_get_task_by_id`, one access after the other, and the tasks it reaches.

  Sources: kernel/proc/scheduler/controller.c (`scheduler_get_task_by_id`, `scheduler_cleanup`),
  runqueue.c (`runqueue_find_by_id`), kernel/proc/task.c (`task_acquire`, `task_try_acquire`).

  The scheduler of Proc/Scheduler.lean looks at a processor in three steps. Here the second and the
  third look are what they are in the source: `scheduler_cleanup` frees without the lock of the
  cleanup queue, so every access of the search in that queue is a step, and so is every access
  through the loaded `current`. The search in a run queue stays one step: whoever changes a run
  queue has its lock.

  * `Look` -- where a processor is in its lookup; it has a task pointer (`Look.raw`), but not yet a
    reference to it;
  * `Lookups.accessed` -- the task records a step reads or writes;
  * `LookSafe` -- `scheduler_cleanup` frees no task whose pointer a lookup has (and `task_join`
    leaves by its second check as `JoinSafe` says);
  * **`lookup_safe`** -- in every run of such steps no step touches a freed task, and a task the
    lookup returned is not freed before it is released; the first other step is one behind which a
    lookup does touch a freed task;
  * `lookup_frees` -- two processors: a task exits and is freed between the load and `cur->id`
-/
import Slightx.Lib.Machine
import Slightx.Proc.SchedRuns

namespace Slightx

open Lib Function

variable {n : Nat}

/-! ## 1. The steps of a lookup -/

/-- What a processor has done of the look that the `Pc` of its current task names. -/
inductive Look where
  | off
  /-- the lock of the cleanup queue is taken; the loop is at `iter` -/
  | walk (iter : Option TaskPtr)
  /-- `iter->id` differs -/
  | next (iter : TaskPtr)
  /-- `iter->id` is the one -/
  | found (iter : TaskPtr)
  /-- `cur` is loaded -/
  | loaded (cur : TaskPtr)
  /-- `cur->id` was the one -/
  | matched (cur : TaskPtr)
  /-- `task_try_acquire` has read a count -/
  | counted (cur : TaskPtr) (count : Nat)
  /-- `task_try_acquire` was successful -/
  | taken (tid : Tid) (cpuIdx : Nat) (cur : TaskPtr)
  deriving DecidableEq

structure Lookups (n : Nat) where
  kernel : Kernel n
  look : Fin n → Look
  /-- a search has the lock of the cleanup queue -/
  locked : Fin n → Bool

/-- A pointer without a reference. -/
def Look.raw : Look → Option TaskPtr
  | .walk iter => iter
  | .next iter => some iter
  | .found iter => some iter
  | .loaded cur => some cur
  | .matched cur => some cur
  | .counted cur _ => some cur
  | _ => none

/-- The search in a cleanup queue is at this task. -/
def Look.linked : Look → Option TaskPtr
  | .walk iter => iter
  | .next iter => some iter
  | .found iter => some iter
  | _ => none

def Lookups.setLook (s : Lookups n) (c : Fin n) (k : Look) : Lookups n :=
  { s with look := update s.look c k }

/-- The look is over; the current task of `c` goes on at `p`. -/
def Lookups.leave (s : Lookups n) (c : Fin n) (p : Pc) : Lookups n :=
  { s with
    kernel := s.kernel.setPc (s.kernel.current c) p
    look := update s.look c .off }

def Lookups.setLocked (s : Lookups n) (d : Fin n) (b : Bool) : Lookups n :=
  { s with locked := update s.locked d b }

/-- A task at these points is in its cleanup queue. -/
def Pc.dead : Pc → Bool
  | .killRelease => true
  | p => p.released

/-- The next access of the lookup on `c`. A weak compare-and-exchange may fail for nothing. -/
def lookGo (s : Lookups n) (c : Fin n) (spurious : Bool) : Option (Lookups n) :=
  match s.look c, s.kernel.pc (s.kernel.current c) with
  | .off, .joinFind _ cpuIdx .cleanup =>
      if h : cpuIdx < n then
        if s.locked ⟨cpuIdx, h⟩ then none
        else some ((s.setLocked ⟨cpuIdx, h⟩ true).setLook c
          (.walk (s.kernel.cleanup ⟨cpuIdx, h⟩).head))
      else none
  | .walk none, .joinFind tid cpuIdx .cleanup =>
      if h : cpuIdx < n then
        some ((s.setLocked ⟨cpuIdx, h⟩ false).leave c (.joinFind tid cpuIdx .current))
      else none
  | .walk (some iter), .joinFind tid _ .cleanup =>
      if s.kernel.id iter = tid then some (s.setLook c (.found iter))
      else some (s.setLook c (.next iter))
  | .next iter, .joinFind _ _ .cleanup =>
      some (s.setLook c (.walk (s.kernel.siblings iter).next))
  | .found iter, .joinFind _ cpuIdx .cleanup =>
      if h : cpuIdx < n then do
        let kernel ← taskAcquire s.kernel iter
        some (({ s with kernel }.setLocked ⟨cpuIdx, h⟩ false).leave c (.joinCheck iter))
      else none
  | .off, .joinFind _ cpuIdx .current =>
      if h : cpuIdx < n then some (s.setLook c (.loaded (s.kernel.current ⟨cpuIdx, h⟩))) else none
  | .loaded cur, .joinFind tid cpuIdx .current =>
      if s.kernel.id cur = tid then some (s.setLook c (.matched cur))
      else some (s.leave c (.joinFind tid (cpuIdx + 1) .tasks))
  | .matched cur, .joinFind tid cpuIdx .current =>
      if s.kernel.refcount cur = 0 then some (s.leave c (.joinFind tid (cpuIdx + 1) .tasks))
      else some (s.setLook c (.counted cur (s.kernel.refcount cur)))
  | .counted cur count, .joinFind tid cpuIdx .current =>
      if s.kernel.refcount cur = count ∧ spurious = false then
        some ({ s with kernel := s.kernel.setRefcount cur (count + 1) }.leave c (.joinCheck cur)
          |>.setLook c (.taken tid cpuIdx cur))
      else if s.kernel.refcount cur = 0 then
        some (s.leave c (.joinFind tid (cpuIdx + 1) .tasks))
      else some (s.setLook c (.counted cur (s.kernel.refcount cur)))
  | .taken tid cpuIdx cur, .joinCheck _ =>
      if s.kernel.id cur = tid then some (s.setLook c .off)
      else do
        let kernel ← taskRelease s.kernel cur
        some ({ s with kernel }.leave c (.joinFind tid (cpuIdx + 1) .tasks))
  | _, _ => none

/-- A step of the scheduler, or the next access of the lookup on a processor. -/
inductive LookEvent (n : Nat) where
  | sched (e : SchedEvent n)
  | look (c : Fin n) (spurious : Bool)

/-- The current task of `c` is not in the middle of a lookup, and nobody has the lock it needs. -/
def Lookups.mayGo (s : Lookups n) (c : Fin n) : Bool :=
  match s.look c, s.kernel.pc (s.kernel.current c) with
  | .off, .joinFind _ _ .cleanup => false
  | .off, .joinFind _ _ .current => false
  | .off, .killEnqueue => !s.locked c
  | .off, _ => true
  | _, _ => false

def lookStep (s : Lookups n) : LookEvent n → Option (Lookups n)
  | .sched (.go c) =>
      if s.mayGo c then (fun kernel => { s with kernel }) <$> schedStep s.kernel (.go c) else none
  | .sched e => (fun kernel => { s with kernel }) <$> schedStep s.kernel e
  | .look c spurious => if s.kernel.tick c = .off then lookGo s c spurious else none

/-! ## 2. Accesses -/

/-- The records behind the pointers at a point of the current task of `c`. The second and the third
    look of a lookup have steps of their own. -/
def Kernel.goAccessed (s : Kernel n) (c : Fin n) : List TaskPtr :=
  match s.pc (s.current c) with
  | .spawnEnqueue x => x :: (s.tasks c).tail.toList
  | .yieldEnqueue _ => (s.tasks c).tail.toList
  | .yieldDequeue _ =>
      match (s.tasks c).head with
      | some x => x :: (s.siblings x).next.toList
      | none => []
  | .yieldSwitch _ dequeued => [dequeued.getD (s.idle c)]
  | .yieldBack (.joined x) => [x]
  | .joinFind _ cpuIdx .tasks =>
      if h : cpuIdx < n then passed s.siblings (s.live.length + 1) (s.tasks ⟨cpuIdx, h⟩).head else []
  | .joinCheck x => [x]
  | .joinAdd x => x :: (s.joiners x).tail.toList
  | .joinRecheck x => [x]
  | .joinDel x =>
      x :: ((s.blocker (s.current c)).prev.toList ++ (s.blocker (s.current c)).next.toList)
  | .joinLeave x => [x]
  | .killWake (some e) => [e]
  | .killQueue e _ => e :: ((wakeCpu s e).bind fun d => (s.tasks d).tail).toList
  | .killEnqueue => (s.cleanup c).tail.toList
  | _ => []

def Kernel.tickAccessed (s : Kernel n) (c : Fin n) : List TaskPtr :=
  match s.tick c with
  | .sleepers _ (t :: _) => [t]
  | .waking _ t _ => t :: ((wakeCpu s t).bind fun d => (s.tasks d).tail).toList
  | .cleaning (some t) =>
      if s.refcount t = 0 then t :: ((s.siblings t).prev.toList ++ (s.siblings t).next.toList)
      else [t]
  | _ => []

/-- The task records a step reads or writes; `alloc` makes the one it writes. -/
def Kernel.accessed (s : Kernel n) : SchedEvent n → List TaskPtr
  | .call c _ => [s.current c]
  | .go c => s.current c :: s.goAccessed c
  | .alloc c _ => [s.current c]
  | .flag _ _ => []
  | .tick _ => []
  | .tock c _ => s.tickAccessed c

def Lookups.accessed (s : Lookups n) : LookEvent n → List TaskPtr
  | .sched e => s.kernel.accessed e
  | .look c _ =>
      match s.look c with
      | .taken _ _ cur => [cur]
      | k => k.raw.toList

/-- The task `scheduler_cleanup` deinitialises and deallocates. -/
def Kernel.frees (s : Kernel n) : SchedEvent n → Option TaskPtr
  | .tock c _ =>
      match s.tick c with
      | .cleaning (some t) => if s.refcount t = 0 then some t else none
      | _ => none
  | _ => none

/-- The lookup has returned `x` to `j`, which has not released it yet. -/
def Kernel.Holds (s : Kernel n) (j x : TaskPtr) : Prop :=
  j ∈ s.live ∧ (s.pc j).target = some x

/-- No task is freed while a lookup has its pointer. -/
def LookSafe (s : Lookups n) : LookEvent n → Prop
  | .sched e => JoinSafe s.kernel e ∧ ∀ x, s.kernel.frees e = some x → ∀ c, (s.look c).raw ≠ some x
  | .look _ _ => True

structure LookLoaded (s : Lookups n) : Prop where
  kernel : SchedLoaded s.kernel
  look : ∀ c, s.look c = .off
  locked : ∀ c, s.locked c = false

/-! ## 3. What a step of the scheduler touches -/

section Accesses

variable {s s' : Kernel n} {place : TaskPtr → Place} {home : TaskPtr → Fin n} {c : Fin n}
  {t x : TaskPtr}

theorem toList_some {o : Option TaskPtr} (hx : x ∈ o.toList) : o = some x :=
  Option.mem_toList.mp hx

theorem live_of (h : SchedInv s place home) {pl : Place} (hx : place x = pl) (hne : pl ≠ .gone) :
    x ∈ s.live :=
  (h.refs.live x).mpr fun he => hne (hx.symm.trans he)

theorem live_current (h : SchedInv s place home) (c : Fin n) : s.current c ∈ s.live :=
  (h.refs.live _).mpr (h.cpus c).current

/-- A member of a queue is live. -/
theorem live_queue (h : SchedInv s place home) {q : QueueId n}
    (hx : (place x).queue (home x) = some q) : x ∈ s.live := by
  rcases placeQueue_some hx with hp | hp
  · exact live_of h hp (by simp)
  · exact live_of h hp (by simp)

theorem live_tail (h : SchedInv s place home) (q : QueueId n) (hx : x ∈ (s.queue q).tail.toList) :
    x ∈ s.live := by
  have hq := threads_tail (h.queues q) (toList_some hx)
  exact live_queue h hq

theorem live_wake (h : SchedInv s place home)
    (hx : x ∈ ((wakeCpu s t).bind fun d => (s.tasks d).tail).toList) : x ∈ s.live := by
  obtain ⟨d, _, hd⟩ := Option.bind_eq_some_iff.mp (toList_some hx)
  exact live_tail h (.tasks d) (Option.mem_toList.mpr hd)

theorem live_target (h : SchedInv s place home) (ht : (s.pc (s.current c)).target = some x) :
    x ∈ s.live :=
  (h.refs.live x).mpr (h.refs.targets _ x (h.cpus c).current ht)

theorem live_joiners (h : SchedInv s place home) {b : TaskPtr} (hx : place x = .joiners b) :
    x ∈ s.live :=
  live_of h hx (by simp)

/-- **The records of a step of the current task.** -/
theorem goAccessed_live (h : SchedInv s place home)
    (hsafe : ∀ x, s.pc (s.current c) = .joinDel x →
      Reaches s.blocker (s.current c) (s.joiners x).head) (hx : x ∈ s.goAccessed c) : x ∈ s.live := by
  obtain ⟨l, _, hl, hin⟩ := h.hands (s.current c) (h.cpus c).current
  have hheld : ∀ u ∈ l, u ∈ s.live := fun u hu => live_of h ((hl u).mp hu) (by simp)
  unfold Kernel.goAccessed at hx
  unfold Kernel.InHands at hin
  cases hp : s.pc (s.current c) <;> rw [hp] at hx hin <;> try dsimp only at hx
  case spawnEnqueue y =>
      obtain ⟨rfl, _⟩ := hin
      rcases List.mem_cons.mp hx with rfl | hx
      · exact hheld _ List.mem_cons_self
      · exact live_tail h (.tasks c) hx
  case yieldEnqueue k => exact live_tail h (.tasks c) hx
  case yieldDequeue k =>
      cases hq : (s.tasks c).head with
      | none =>
          rw [hq] at hx
          cases hx
      | some y =>
          rw [hq] at hx
          have hy := threads_head (show Threads s.siblings (some y) _ _ _ from hq ▸ h.queues (.tasks c))
          rcases List.mem_cons.mp hx with rfl | hx
          · exact live_queue h hy
          · exact live_queue h (threads_next (h.queues (.tasks c)) hy (toList_some hx)).1
  case yieldSwitch k r =>
      obtain ⟨rfl, _⟩ := hin
      rw [List.mem_singleton] at hx
      cases r with
      | none => exact hx ▸ live_of h (h.cpus c).idle (by simp)
      | some y => exact hx ▸ hheld y List.mem_cons_self
  case yieldBack k =>
      cases k with
      | joined y =>
          rw [List.mem_singleton] at hx
          exact hx ▸ live_target h (by rw [hp]; rfl)
      | caller => cases hx
      | slept => cases hx
      | killed => cases hx
  case joinFind tid i phase =>
      cases phase with
      | tasks =>
          dsimp only at hx
          split at hx
          · exact live_queue h ((threads_reaches (h.queues (.tasks _))).mp (passed_reaches hx))
          · cases hx
      | cleanup => cases hx
      | current => cases hx
  case joinAdd y =>
      have hy : y ∈ s.live := live_target h (by rw [hp]; rfl)
      rcases List.mem_cons.mp hx with rfl | hx
      · exact hy
      · obtain ⟨k, hk⟩ := h.waits y ((h.refs.live y).mp hy)
        have hj := threads_tail hk (toList_some hx)
        exact live_joiners h hj
  case joinDel y =>
      have hy : y ∈ s.live := live_target h (by rw [hp]; rfl)
      obtain ⟨k, hk⟩ := h.waits y ((h.refs.live y).mp hy)
      have hself := (threads_reaches hk).mp (hsafe y hp)
      rcases List.mem_cons.mp hx with rfl | hx
      · exact hy
      · rcases List.mem_append.mp hx with hx | hx
        · have hj := threads_prev hk hself (toList_some hx)
          exact live_joiners h hj
        · have hj := threads_next hk hself (toList_some hx)
          exact live_joiners h hj.1
  case killWake e =>
      cases e with
      | none => cases hx
      | some e =>
          obtain ⟨hfollow, _⟩ := hin
          rw [List.mem_singleton] at hx
          cases l with
          | nil => cases hfollow
          | cons a l =>
              obtain ⟨hea, _⟩ := hfollow
              rw [hx, Option.some.inj hea]
              exact hheld a List.mem_cons_self
  case killQueue e next =>
      obtain ⟨k, rfl, _⟩ := hin
      rcases List.mem_cons.mp hx with rfl | hx
      · exact hheld _ List.mem_cons_self
      · exact live_wake h hx
  case killEnqueue => exact live_tail h (.cleanup c) hx
  case joinCheck y | joinRecheck y | joinLeave y =>
      rw [List.mem_singleton] at hx
      exact hx ▸ live_target h (by rw [hp]; rfl)
  all_goals cases hx

theorem tickAccessed_live (h : SchedInv s place home) (hx : x ∈ s.tickAccessed c) : x ∈ s.live := by
  have hat := tickOk_iff.mp (h.cpus c).tick
  have hsleep : ∀ u ∈ s.sleepers c, u ∈ s.live := fun u hu =>
    live_of h (((h.cpus c).sleeping u).mp hu).1 (by simp)
  unfold Kernel.tickAccessed at hx
  cases ht : s.tick c <;> rw [ht] at hx hat <;> try dsimp only at hx
  case off => cases hx
  case sleepers kept rest =>
      cases rest with
      | nil => cases hx
      | cons t rest =>
          rw [List.mem_singleton] at hx
          have hall : s.sleepers c = kept ++ t :: rest := hat
          refine hx ▸ hsleep t ?_
          rw [hall]
          exact List.mem_append_right _ List.mem_cons_self
  case waking kept t rest =>
      have hall : s.sleepers c = kept ++ t :: rest := hat
      rcases List.mem_cons.mp hx with rfl | hx
      · refine hsleep _ ?_
        rw [hall]
        exact List.mem_append_right _ List.mem_cons_self
      · exact live_wake h hx
  case cleaning e =>
      cases e with
      | none => cases hx
      | some t =>
          obtain ⟨hz, hh⟩ := hat t rfl
          have hmem : (place t).queue (home t) = some (.cleanup c) := by
            rw [hz, hh]
            rfl
          have hlive := live_queue h hmem
          dsimp only at hx
          split at hx
          · rcases List.mem_cons.mp hx with rfl | hx
            · exact hlive
            · rcases List.mem_append.mp hx with hx | hx
              · have hq := threads_prev (h.queues (.cleanup c)) hmem (toList_some hx)
                exact live_queue h hq
              · have hq := threads_next (h.queues (.cleanup c)) hmem (toList_some hx)
                exact live_queue h hq.1
          · rw [List.mem_singleton] at hx
            exact hx ▸ hlive

/-- **A step of the scheduler touches live tasks.** -/
theorem accessed_live (h : SchedInv s place home) {e : SchedEvent n} (hsafe : JoinSafe s e)
    (hx : x ∈ s.accessed e) : x ∈ s.live := by
  cases e with
  | call c op => exact List.mem_singleton.mp hx ▸ live_current h c
  | go c =>
      rcases List.mem_cons.mp hx with rfl | hx
      · exact live_current h c
      · exact goAccessed_live h hsafe hx
  | alloc c y => exact List.mem_singleton.mp hx ▸ live_current h c
  | flag c b => cases hx
  | tick c => cases hx
  | tock c b => exact tickAccessed_live h hx

end Accesses

/-! ## 4. What a step of the scheduler leaves alone -/

section Frames

variable {s s' : Kernel n} {place : TaskPtr → Place} {home : TaskPtr → Fin n} {c : Fin n}
  {t x : TaskPtr}

/-- A step of the current task of `c`, from outside. -/
structure Kernel.Local (s s' : Kernel n) (c : Fin n) : Prop where
  live : s'.live = s.live
  pc : ∀ u, u ≠ s.current c → s'.pc u = s.pc u
  current : ∀ d, d ≠ c → s'.current d = s.current d

theorem local_setPc {p : Pc} (hlive : s'.live = s.live) (hpc : s'.pc = update s.pc (s.current c) p)
    (hcur : s'.current = s.current) : s.Local s' c where
  live := hlive
  pc := fun _ hu => (congrFun hpc _).trans (update_of_ne hu _ _)
  current := fun d _ => congrFun hcur d

theorem local_release {s₁ : Kernel n} {p : Pc}
    (hs : (·.setPc (s.current c) p) <$> taskRelease s₁ x = some s') (hlive : s₁.live = s.live)
    (hpc : s₁.pc = s.pc) (hcur : s₁.current = s.current) : s.Local s' c := by
  unfold taskRelease at hs
  split at hs
  · cases hs
  · obtain rfl := Option.some.inj hs
    refine local_setPc (p := p) hlive ?_ hcur
    show update s₁.pc _ _ = _
    rw [hpc]

theorem local_acquire {p : Pc}
    (hs : (·.setPc (s.current c) p) <$> taskAcquire s x = some s') : s.Local s' c := by
  unfold taskAcquire at hs
  split at hs
  · cases hs
  · obtain rfl := Option.some.inj hs
    exact local_setPc rfl rfl rfl

theorem local_find {tid : Tid} {i : Nat} {phase : FindPhase}
    (hs : schedulerGetTaskById s (s.current c) tid i phase = some s') : s.Local s' c := by
  unfold schedulerGetTaskById at hs
  split at hs
  · rename_i hi
    cases phase with
    | tasks =>
        obtain ⟨r, _, hs⟩ := Option.bind_eq_some_iff.mp hs
        cases r with
        | none =>
            obtain rfl := Option.some.inj hs
            exact local_setPc rfl rfl rfl
        | some y => exact local_acquire hs
    | cleanup =>
        obtain ⟨r, _, hs⟩ := Option.bind_eq_some_iff.mp hs
        cases r with
        | none =>
            obtain rfl := Option.some.inj hs
            exact local_setPc rfl rfl rfl
        | some y => exact local_acquire hs
    | current =>
        dsimp only at hs
        split at hs
        · obtain rfl := Option.some.inj hs
          exact local_setPc rfl rfl rfl
        · obtain rfl := Option.some.inj hs
          exact local_setPc rfl rfl rfl
  · cases hs

theorem goStep_local (hs : goStep s c = some s') : s.Local s' c := by
  dsimp only [goStep] at hs
  cases hp : s.pc (s.current c) <;> rw [hp] at hs
  case away | spawnInit => cases hs
  case yieldEnter k =>
      dsimp only at hs
      split at hs
      · obtain rfl := Option.some.inj hs
        exact local_setPc rfl rfl rfl
      · obtain rfl := Option.some.inj hs
        exact local_setPc rfl rfl rfl
  case yieldSwitch k r =>
      obtain rfl := Option.some.inj hs
      have hsw := schedulerSwitch_switched (s := s) (c := c) k r
      exact
        { live := hsw.live
          pc := fun u hu => (congrFun hsw.pc u).trans (update_of_ne hu _ _)
          current := fun d hd => (congrFun hsw.current d).trans (update_of_ne hd _ _) }
  case yieldBack k =>
      cases k with
      | caller =>
          obtain rfl := Option.some.inj hs
          exact local_setPc rfl rfl rfl
      | slept =>
          obtain rfl := Option.some.inj hs
          exact local_setPc rfl rfl rfl
      | joined y =>
          dsimp only at hs
          exact local_release hs rfl rfl rfl
      | killed => cases hs
  case joinFind => exact local_find hs
  case joinCheck y =>
      dsimp only at hs
      split at hs
      · cases hs
      split at hs
      · exact local_release hs rfl rfl rfl
      · obtain rfl := Option.some.inj hs
        exact local_setPc rfl rfl rfl
  case joinAdd y =>
      obtain ⟨r, _, hs⟩ := Option.bind_eq_some_iff.mp hs
      obtain rfl := Option.some.inj hs
      exact local_setPc rfl rfl rfl
  case joinRecheck y =>
      dsimp only at hs
      split at hs
      · obtain rfl := Option.some.inj hs
        exact local_setPc rfl rfl rfl
      · obtain rfl := Option.some.inj hs
        exact local_setPc rfl rfl rfl
  case joinLeave y => exact local_release hs rfl rfl rfl
  case killWake e =>
      cases e with
      | none =>
          obtain rfl := Option.some.inj hs
          exact local_setPc rfl rfl rfl
      | some e =>
          obtain rfl := Option.some.inj hs
          exact local_setPc rfl rfl rfl
  case killQueue e next =>
      obtain ⟨d, _, hs⟩ := Option.bind_eq_some_iff.mp hs
      obtain rfl := Option.some.inj hs
      exact local_setPc rfl rfl rfl
  case killRelease => exact local_release hs rfl rfl rfl
  all_goals
    obtain rfl := Option.some.inj hs
    exact local_setPc rfl rfl rfl

theorem callOp_local {op : SchedOp} (hs : callOp s c op = some s') : s.Local s' c := by
  cases op <;> dsimp only [callOp] at hs
  case spawn | yield =>
      obtain rfl := Option.some.inj hs
      exact local_setPc rfl rfl rfl
  all_goals
    split at hs
    · cases hs
    · obtain rfl := Option.some.inj hs
      exact local_setPc rfl rfl rfl

/-- The timer interrupt changes no point of a task, and ends no record but the one it frees. -/
theorem tickStep_frame {b : Bool} (hs : tickStep s c b = some s') :
    s'.pc = s.pc ∧ s'.current = s.current ∧
      ∀ y ∈ s.live, s.frees (.tock c b) ≠ some y → y ∈ s'.live := by
  unfold tickStep at hs
  unfold Kernel.frees
  cases ht : s.tick c with
  | off =>
      rw [ht] at hs
      cases hs
  | sleepers kept rest =>
      rw [ht] at hs
      cases rest with
      | nil =>
          obtain rfl := Option.some.inj hs
          exact ⟨rfl, rfl, fun _ hy _ => hy⟩
      | cons t rest =>
          dsimp only at hs
          split at hs
          all_goals
            obtain rfl := Option.some.inj hs
            exact ⟨rfl, rfl, fun _ hy _ => hy⟩
  | waking kept t rest =>
      rw [ht] at hs
      obtain ⟨d, _, hs⟩ := Option.bind_eq_some_iff.mp hs
      obtain rfl := Option.some.inj hs
      exact ⟨rfl, rfl, fun _ hy _ => hy⟩
  | cleaning e =>
      rw [ht] at hs
      cases e with
      | none =>
          obtain rfl := Option.some.inj hs
          exact ⟨rfl, rfl, fun _ hy _ => hy⟩
      | some t =>
          dsimp only at hs ⊢
          split at hs
          · rename_i hzero
            obtain rfl := Option.some.inj hs
            refine ⟨rfl, rfl, fun y hy hne => ?_⟩
            simp only [ht, hzero, if_true] at hne
            exact (List.mem_erase_of_ne fun he => hne (congrArg some he.symm)).mpr hy
          · obtain rfl := Option.some.inj hs
            exact ⟨rfl, rfl, fun _ hy _ => hy⟩

theorem dead_setPc {p : Pc} (hp : p.dead = true) : ((s.setPc t p).pc t).dead = true := by
  show (update s.pc t p t).dead = true
  rw [update_self]
  exact hp

theorem goStep_dead (hs : goStep s c = some s') (hp : (s.pc (s.current c)).dead = true) :
    (s'.pc (s.current c)).dead = true := by
  dsimp only [goStep] at hs
  cases hpc : s.pc (s.current c) <;> rw [hpc] at hs hp
  case killRelease =>
      dsimp only at hs
      unfold taskRelease at hs
      split at hs
      · cases hs
      · obtain rfl := Option.some.inj hs
        exact dead_setPc rfl
  case yieldEnter k =>
      cases k <;> simp only [Pc.dead, Pc.released, Bool.false_eq_true] at hp
      dsimp only at hs
      split at hs
      · obtain rfl := Option.some.inj hs
        exact dead_setPc rfl
      · obtain rfl := Option.some.inj hs
        exact dead_setPc rfl
  case yieldEnqueue k | yieldDequeue k =>
      cases k <;> simp only [Pc.dead, Pc.released, Bool.false_eq_true] at hp
      obtain rfl := Option.some.inj hs
      exact dead_setPc rfl
  case yieldSwitch k r =>
      cases k <;> simp only [Pc.dead, Pc.released, Bool.false_eq_true] at hp
      obtain rfl := Option.some.inj hs
      rw [(schedulerSwitch_switched (s := s) (c := c) .killed r).pc, update_self]
      rfl
  case yieldBack k =>
      cases k <;> simp only [Pc.dead, Pc.released, Bool.false_eq_true] at hp
      cases hs
  all_goals cases hp

/-- **A live task stays live unless this step frees it, and a dead one dead.** -/
theorem step_keeps {e : SchedEvent n} (hs : schedStep s e = some s') (hx : x ∈ s.live) :
    (s.frees e ≠ some x → x ∈ s'.live) ∧ ((s.pc x).dead = true → (s'.pc x).dead = true) := by
  have hlocal : ∀ c, s.Local s' c → ((s.pc (s.current c)).dead = true →
      (s'.pc (s.current c)).dead = true) →
      (s.frees e ≠ some x → x ∈ s'.live) ∧ ((s.pc x).dead = true → (s'.pc x).dead = true) := by
    intro c hl hdead
    refine ⟨fun _ => hl.live ▸ hx, fun hp => ?_⟩
    by_cases hxc : x = s.current c
    · subst hxc
      exact hdead hp
    · rw [hl.pc x hxc]
      exact hp
  cases e with
  | call c op =>
      simp only [schedStep] at hs
      split at hs
      · rename_i hc
        refine hlocal c (callOp_local hs) fun hp => ?_
        rw [hc.2] at hp
        cases hp
      · cases hs
  | go c =>
      simp only [schedStep] at hs
      split at hs
      · exact hlocal c (goStep_local hs) (goStep_dead hs)
      · cases hs
  | alloc c y =>
      simp only [schedStep] at hs
      split at hs
      · rename_i hc
        split at hs
        · rename_i tid detached hp
          obtain rfl := Option.some.inj hs
          have hxy : x ≠ y := fun he => hc.2 (he ▸ hx)
          refine ⟨fun _ => List.mem_cons_of_mem _ hx, fun hd => ?_⟩
          have hxc : x ≠ s.current c := by
            rintro rfl
            rw [hp] at hd
            cases hd
          show (update (update s.pc y .away) (s.current c) _ x).dead = true
          rw [update_of_ne hxc, update_of_ne hxy]
          exact hd
        · cases hs
      · cases hs
  | flag c b =>
      simp only [schedStep] at hs
      split at hs
      · obtain rfl := Option.some.inj hs
        exact ⟨fun _ => hx, id⟩
      · cases hs
  | tick c =>
      simp only [schedStep] at hs
      split at hs
      · obtain rfl := Option.some.inj hs
        exact ⟨fun _ => hx, id⟩
      · cases hs
  | tock c b =>
      obtain ⟨hpc, _, hlive⟩ := tickStep_frame hs
      exact ⟨hlive x hx, fun hp => hpc ▸ hp⟩

/-- The current task of a processor stays where it is, unless it is the one that moves. -/
theorem step_rests (h : SchedInv s place home) {e : SchedEvent n} (hs : schedStep s e = some s')
    (he : ∀ d, e = .go d → d ≠ c) {p : Pc} (hp : s.pc (s.current c) = p) (hbusy : p ≠ .away)
    (hinit : ∀ tid b, p ≠ .spawnInit tid b) :
    s'.current c = s.current c ∧ s'.pc (s.current c) = p := by
  have hother : ∀ d, d ≠ c → s.Local s' d → s'.current c = s.current c ∧ s'.pc (s.current c) = p := by
    intro d hd hl
    refine ⟨hl.current c hd.symm, ?_⟩
    rw [hl.pc _ fun hcd => hd.symm (current_inj h hcd)]
    exact hp
  cases e with
  | call d op =>
      simp only [schedStep] at hs
      split at hs
      · rename_i hc
        refine hother d ?_ (callOp_local hs)
        rintro rfl
        exact hbusy (hp.symm.trans hc.2)
      · cases hs
  | go d =>
      simp only [schedStep] at hs
      split at hs
      · exact hother d (he d rfl) (goStep_local hs)
      · cases hs
  | alloc d y =>
      simp only [schedStep] at hs
      split at hs
      · rename_i hc
        split at hs
        · rename_i tid detached hd
          obtain rfl := Option.some.inj hs
          have hcd : s.current c ≠ s.current d := by
            intro he
            rw [← he, hp] at hd
            exact hinit _ _ hd
          have hcy : s.current c ≠ y := fun he => hc.2 (he ▸ live_current h c)
          refine ⟨rfl, ?_⟩
          show update (update s.pc y .away) (s.current d) _ (s.current c) = p
          rw [update_of_ne hcd, update_of_ne hcy]
          exact hp
        · cases hs
      · cases hs
  | flag d b =>
      simp only [schedStep] at hs
      split at hs
      · obtain rfl := Option.some.inj hs
        exact ⟨rfl, hp⟩
      · cases hs
  | tick d =>
      simp only [schedStep] at hs
      split at hs
      · obtain rfl := Option.some.inj hs
        exact ⟨rfl, hp⟩
      · cases hs
  | tock d b =>
      obtain ⟨hpc, hcur, _⟩ := tickStep_frame hs
      exact ⟨congrFun hcur c, (congrFun hpc _).trans hp⟩

theorem stands_dead {p : Pc} {pl : Place} {st : TaskStateType} (h : Stands p pl st) :
    pl = .zombie ↔ p.dead = true := by
  have hhand : ∀ k : After, k.Handed pl → (pl = .zombie ↔ k = .killed) := by
    intro k hk
    cases k with
    | killed => exact ⟨fun _ => rfl, fun _ => hk⟩
    | caller => rcases hk with rfl | rfl | ⟨q, rfl⟩ <;> simp
    | slept => rcases hk with rfl | rfl | ⟨q, rfl⟩ <;> simp
    | joined x => rcases hk with rfl | rfl | ⟨q, rfl⟩ <;> simp
  have hact : Active pl st → pl ≠ .zombie := by
    rintro (rfl | ⟨rfl, _⟩) <;> simp
  cases p
  case yieldEnter k =>
      rcases h with ⟨rfl, hk⟩ | ⟨_, hk, _⟩
      · simp [hact hk, Pc.dead, Pc.released]
      · rw [hhand k hk]
        cases k <;> simp [Pc.dead, Pc.released]
  case yieldEnqueue k => simp [h.1, h.2, Pc.dead, Pc.released]
  case yieldDequeue k | yieldSwitch k _ =>
      rw [hhand k h]
      cases k <;> simp [Pc.dead, Pc.released]
  case yieldBack k =>
      rcases h with hk | ⟨hk, rfl, _⟩
      · rw [hhand k hk]
        cases k <;> simp [Pc.dead, Pc.released]
      · cases k <;> simp [Pc.dead, Pc.released] at hk ⊢
  case away =>
      rcases h with h | rfl | ⟨q, rfl⟩
      · simp [hact h, Pc.dead, Pc.released]
      · simp [Pc.dead, Pc.released]
      · simp [Pc.dead, Pc.released]
  case spawnTid | spawnInit | spawnEnqueue => simp [hact h, Pc.dead, Pc.released]
  case sleepBlock => simp [hhand .slept h, Pc.dead, Pc.released]
  case joinRecheck x | joinDel x => simp [hhand (.joined x) h.1, Pc.dead, Pc.released]
  case joinBlock x => simp [hhand (.joined x) h, Pc.dead, Pc.released]
  all_goals simp [h.1, Pc.dead, Pc.released]

end Frames

/-! ## 5. The pointers of the lookups -/

/-- The pointer a lookup has is one to a live task; in the search of a cleanup queue it is still
    linked there. -/
structure LookOk (k : Kernel n) (c : Fin n) (l : Look) : Prop where
  raw : ∀ x, l.raw = some x → x ∈ k.live
  linked : ∀ x, l.linked = some x → (k.pc x).dead = true
  taken : ∀ tid i x, l = .taken tid i x → k.pc (k.current c) = .joinCheck x

def LookInv (s : Lookups n) : Prop :=
  (∃ place home, SchedInv s.kernel place home) ∧ ∀ c, LookOk s.kernel c (s.look c)

section Steps

variable {s s' : Lookups n} {k : Kernel n} {place : TaskPtr → Place} {home : TaskPtr → Fin n}
  {c : Fin n} {x : TaskPtr}

theorem linked_raw {l : Look} (hl : l.linked = some x) : l.raw = some x := by
  cases l <;> first | exact hl | cases hl

theorem lookOk_off : LookOk k c .off :=
  ⟨nofun, nofun, nofun⟩

/-- A member of a cleanup queue is live and dead. -/
theorem cleanup_member (h : SchedInv k place home) {d : Fin n}
    (hx : (place x).queue (home x) = some (.cleanup d)) : x ∈ k.live ∧ (k.pc x).dead = true := by
  have hlive := live_queue h hx
  refine ⟨hlive, (stands_dead (h.tasks x ((h.refs.live x).mp hlive)).stands).mp ?_⟩
  rcases placeQueue_some hx with hp | hp
  · rw [hp] at hx
    cases hx
  · exact hp

theorem lookOk_walk (h : SchedInv k place home) {d : Fin n} {iter : Option TaskPtr}
    (hiter : ∀ x, iter = some x → (place x).queue (home x) = some (.cleanup d)) :
    LookOk k c (.walk iter) where
  raw := fun x hx => (cleanup_member h (hiter x hx)).1
  linked := fun x hx => (cleanup_member h (hiter x hx)).2
  taken := nofun

/-- **A step of the scheduler.** -/
theorem inv_lookSched (h : LookInv s) {e : SchedEvent n} (hsafe : LookSafe s (.sched e))
    {kernel : Kernel n} (hs : schedStep s.kernel e = some kernel)
    (hgo : ∀ c, e = .go c → s.mayGo c = true) : LookInv { s with kernel } := by
  obtain ⟨⟨place, home, hinv⟩, hlook⟩ := h
  obtain ⟨place', home', hinv', _⟩ := inv_step hinv hsafe.1 hs
  refine ⟨⟨place', home', hinv'⟩, fun c => ?_⟩
  have hc := hlook c
  refine ⟨fun x hx => ?_, fun x hx => ?_, fun tid i x hx => ?_⟩
  · exact (step_keeps hs (hc.raw x hx)).1 fun hf => hsafe.2 x hf c hx
  · exact (step_keeps hs (hc.raw x (linked_raw hx))).2 (hc.linked x hx)
  · have hstay := step_rests hinv hs (c := c) (fun d hd hdc => ?_) (hc.taken tid i x hx) (by simp)
      (by simp)
    · show kernel.pc (kernel.current c) = _
      rw [hstay.1]
      exact hstay.2
    · have hgo := hgo d hd
      unfold Lookups.mayGo at hgo
      rw [hdc, show s.look c = _ from hx] at hgo
      cases hgo

/-- What a step of the lookup on `c` has to show. -/
theorem lookInv_look (h : LookInv s) (hinv : ∃ place home, SchedInv s'.kernel place home)
    (hl : s.kernel.Local s'.kernel c) (hdead : (s.kernel.pc (s.kernel.current c)).dead = false)
    (hother : ∀ d, d ≠ c → s'.look d = s.look d) (hc : LookOk s'.kernel c (s'.look c)) :
    LookInv s' := by
  refine ⟨hinv, fun d => ?_⟩
  obtain ⟨⟨place, home, hold⟩, hlook⟩ := h
  by_cases hd : d = c
  · exact hd ▸ hc
  · have hok := hlook d
    rw [hother d hd]
    refine ⟨fun x hx => hl.live ▸ hok.raw x hx, fun x hx => ?_, fun tid i x hx => ?_⟩
    · have hx := hok.linked x hx
      rw [hl.pc x]
      · exact hx
      · rintro rfl
        rw [hdead] at hx
        cases hx
    · rw [hl.current d hd, hl.pc _ fun he => hd (current_inj hold he)]
      exact hok.taken tid i x hx

theorem local_same (hk : s'.kernel = s.kernel) : s.kernel.Local s'.kernel c where
  live := by rw [hk]
  pc := fun _ _ => by rw [hk]
  current := fun _ _ => by rw [hk]

/-- An access that changes nothing but where the lookup is. -/
theorem inv_lookOnly (h : LookInv s) {l : Look} (hdead : (s.kernel.pc (s.kernel.current c)).dead = false)
    (hc : LookOk s.kernel c l) : LookInv (s.setLook c l) := by
  refine lookInv_look h h.1 (local_same rfl) hdead (fun d hd => update_of_ne hd _ _) ?_
  show LookOk s.kernel c (update s.look c l c)
  rw [update_self]
  exact hc

/-- The lookup goes on to another place. -/
theorem inv_lookNext (h : LookInv s) (hoff : s.kernel.tick c = .off) {tid : Tid} {i : Nat}
    {phase : FindPhase} (hp : s.kernel.pc (s.kernel.current c) = .joinFind tid i phase) (j : Nat)
    (ph : FindPhase) : LookInv (s.leave c (.joinFind tid j ph)) := by
  obtain ⟨place, home, hinv⟩ := h.1
  refine lookInv_look h ⟨place, home, inv_joinNext hinv hoff hp j ph⟩ (local_setPc rfl rfl rfl)
    (by rw [hp]; rfl) (fun d hd => update_of_ne hd _ _) ?_
  show LookOk _ c (update s.look c .off c)
  rw [update_self]
  exact lookOk_off

/-- The lookup takes its reference. -/
theorem inv_lookTake (h : LookInv s) (hoff : s.kernel.tick c = .off) {tid : Tid} {i : Nat}
    {phase : FindPhase} (hp : s.kernel.pc (s.kernel.current c) = .joinFind tid i phase)
    (hx : x ∈ s.kernel.live) {l : Look} (hraw : l.raw = none)
    (htaken : ∀ t j y, l = .taken t j y → y = x) :
    LookInv ({ s with kernel := s.kernel.setRefcount x (s.kernel.refcount x + 1) }.leave c
      (.joinCheck x) |>.setLook c l) := by
  obtain ⟨place, home, hinv⟩ := h.1
  refine lookInv_look h ⟨place, home, inv_acquire hinv hoff hp ((hinv.refs.live x).mp hx)⟩
    (local_setPc rfl rfl rfl) (by rw [hp]; rfl)
    (fun d hd => (update_of_ne hd _ _).trans (update_of_ne hd _ _)) ?_
  show LookOk ((s.kernel.setRefcount x _).setPc (s.kernel.current c) (.joinCheck x)) c
    (update (update s.look c .off) c l c)
  rw [update_self]
  refine ⟨fun y hy => ?_, fun y hy => ?_, fun t j y hy => ?_⟩
  · rw [hraw] at hy
    cases hy
  · rw [linked_raw hy] at hraw
    cases hraw
  · rw [htaken t j y hy]
    exact update_self _ _ _

theorem inv_giveBack (hinv : SchedInv k place home) (hoff : k.tick c = .off)
    (hp : k.pc (k.current c) = .joinCheck x) {k' : Kernel n} (hr : taskRelease k x = some k')
    (tid : Tid) (j : Nat) : SchedInv (k'.setPc (k.current c) (.joinFind tid j .tasks)) place home := by
  have hst := current_stands hinv hp
  unfold taskRelease at hr
  split at hr
  · cases hr
  · rename_i hx
    obtain rfl := Option.some.inj hr
    exact schedInv_quiet hinv hoff
      ⟨rfl, rfl, rfl, rfl, rfl, rfl, fun _ _ => rfl, fun u hu => update_of_ne hu _ _, fun _ _ => rfl⟩
      hp (update_self _ _ _) ⟨rfl, rfl⟩ ⟨rfl, rfl, rfl, rfl, rfl⟩ (fun _ => Or.inl rfl)
      (fun _ _ => rfl) hst (fun he => nomatch he) (current_idle_ready hinv) (fun he => nomatch he)
      (refs_give hinv (fun u hu => update_of_ne hu _ _) hx rfl hp (update_self _ _ _) rfl rfl rfl)

/-- **The next access of a lookup.** -/
theorem inv_lookGo (h : LookInv s) (hoff : s.kernel.tick c = .off) {spurious : Bool}
    (hs : lookGo s c spurious = some s') : LookInv s' := by
  obtain ⟨place, home, hinv⟩ := h.1
  have hc := h.2 c
  have hfind : ∀ {tid i phase}, s.kernel.pc (s.kernel.current c) = .joinFind tid i phase →
      (s.kernel.pc (s.kernel.current c)).dead = false := fun hp => by rw [hp]; rfl
  unfold lookGo at hs
  split at hs
  · -- the lock is taken
    rename_i tid i hl hp
    split at hs
    · rename_i hi
      split at hs
      · cases hs
      · obtain rfl := Option.some.inj hs
        refine inv_lookOnly (s := s.setLocked ⟨i, hi⟩ true) h (hfind hp) ?_
        refine lookOk_walk (d := ⟨i, hi⟩) hinv fun x hx => ?_
        exact (threads_reaches (h := (s.kernel.cleanup ⟨i, hi⟩).head)
          (hinv.queues (.cleanup ⟨i, hi⟩))).mp (hx ▸ Reaches.here)
    · cases hs
  · -- the end of the queue
    rename_i tid i hl hp
    split at hs
    · obtain rfl := Option.some.inj hs
      exact inv_lookNext h hoff hp i .current
    · cases hs
  · rename_i iter tid i hl hp
    rw [hl] at hc
    have hok : ∀ l : Look, l.raw = some iter → (∀ t j x, l ≠ .taken t j x) → LookOk s.kernel c l :=
      fun l hraw htaken => ⟨fun x hx => hc.raw x (hraw.symm.trans hx ▸ rfl),
        fun x hx => hc.linked x (hraw.symm.trans (linked_raw hx) ▸ rfl),
        fun t j x he => absurd he (htaken t j x)⟩
    split at hs
    · obtain rfl := Option.some.inj hs
      exact inv_lookOnly h (hfind hp) (hok (.found iter) rfl (by simp))
    · obtain rfl := Option.some.inj hs
      exact inv_lookOnly h (hfind hp) (hok (.next iter) rfl (by simp))
  · -- a dead task is linked, and so is the one behind it
    rename_i iter tid i hl hp
    rw [hl] at hc
    obtain rfl := Option.some.inj hs
    have hlive := (hinv.refs.live iter).mp (hc.raw iter rfl)
    have hz := (stands_dead (hinv.tasks iter hlive).stands).mpr (hc.linked iter rfl)
    have hmem : (place iter).queue (home iter) = some (.cleanup (home iter)) := by
      rw [hz]
      rfl
    refine inv_lookOnly h (hfind hp) (lookOk_walk (d := home iter) hinv fun x hx => ?_)
    exact (threads_next (hinv.queues (.cleanup (home iter))) hmem hx).1
  · rename_i iter tid i hl hp
    rw [hl] at hc
    split at hs
    · obtain ⟨kernel, hacq, hs⟩ := Option.bind_eq_some_iff.mp hs
      obtain rfl := Option.some.inj hs
      unfold taskAcquire at hacq
      split at hacq
      · cases hacq
      · obtain rfl := Option.some.inj hacq
        have htake := inv_lookTake (l := .off) h hoff hp (hc.raw iter rfl) rfl nofun
        refine ⟨htake.1, fun d => ?_⟩
        have hd := htake.2 d
        unfold Lookups.setLook Lookups.leave at hd
        rwa [update_idem] at hd
    · cases hs
  · rename_i tid i hl hp
    split at hs
    · rename_i hi
      obtain rfl := Option.some.inj hs
      refine inv_lookOnly h (hfind hp) ⟨fun x hx => ?_, nofun, nofun⟩
      exact Option.some.inj hx ▸ live_current hinv ⟨i, hi⟩
    · cases hs
  · rename_i cur tid i hl hp
    rw [hl] at hc
    split at hs
    · obtain rfl := Option.some.inj hs
      exact inv_lookOnly h (hfind hp) ⟨hc.raw, nofun, nofun⟩
    · obtain rfl := Option.some.inj hs
      exact inv_lookNext h hoff hp (i + 1) .tasks
  · rename_i cur tid i hl hp
    rw [hl] at hc
    split at hs
    · obtain rfl := Option.some.inj hs
      exact inv_lookNext h hoff hp (i + 1) .tasks
    · obtain rfl := Option.some.inj hs
      exact inv_lookOnly h (hfind hp) ⟨hc.raw, nofun, nofun⟩
  · rename_i cur count tid i hl hp
    rw [hl] at hc
    split at hs
    · rename_i heq
      obtain rfl := Option.some.inj hs
      rw [← heq.1]
      refine inv_lookTake h hoff hp (hc.raw cur rfl) rfl fun t j y he => ?_
      cases he
      rfl
    split at hs
    · obtain rfl := Option.some.inj hs
      exact inv_lookNext h hoff hp (i + 1) .tasks
    · obtain rfl := Option.some.inj hs
      exact inv_lookOnly h (hfind hp) ⟨hc.raw, nofun, nofun⟩
  · rename_i tid i cur y hl hp
    have hpc : s.kernel.pc (s.kernel.current c) = .joinCheck cur := hc.taken tid i cur hl
    split at hs
    · obtain rfl := Option.some.inj hs
      exact inv_lookOnly h (by rw [hpc]; rfl) lookOk_off
    · obtain ⟨kernel, hrel, hs⟩ := Option.bind_eq_some_iff.mp hs
      obtain rfl := Option.some.inj hs
      have hback := inv_giveBack hinv hoff hpc hrel tid (i + 1)
      unfold taskRelease at hrel
      split at hrel
      · cases hrel
      · obtain rfl := Option.some.inj hrel
        refine lookInv_look h ⟨place, home, hback⟩ (local_setPc rfl rfl rfl) (by rw [hpc]; rfl)
          (fun d hd => update_of_ne hd _ _) ?_
        show LookOk _ c (update s.look c .off c)
        rw [update_self]
        exact lookOk_off
  · cases hs

/-- **Every safe step keeps the pointers.** -/
theorem inv_lookStep (h : LookInv s) {e : LookEvent n} (hsafe : LookSafe s e)
    (hs : lookStep s e = some s') : LookInv s' := by
  cases e with
  | sched e =>
      cases e with
      | go c =>
          simp only [lookStep] at hs
          split at hs
          · rename_i hmay
            obtain ⟨kernel, hk, rfl⟩ := Option.map_eq_some_iff.mp hs
            refine inv_lookSched h hsafe hk fun d hd => ?_
            cases hd
            exact hmay
          · cases hs
      | _ =>
          obtain ⟨kernel, hk, rfl⟩ := Option.map_eq_some_iff.mp hs
          exact inv_lookSched h hsafe hk nofun
  | look c spurious =>
      simp only [lookStep] at hs
      split at hs
      · rename_i hoff
        exact inv_lookGo h hoff hs
      · cases hs

/-! ## 6. Runs -/

/-- The pointers of every state of a safe run. -/
theorem run_lookInv {s₀ : Lookups n} {es : List (LookEvent n)} (h₀ : LookLoaded s₀)
    (hrun : Runs lookStep LookSafe s₀ es s) (c : Fin n) : LookInv s := by
  refine runs_inv LookInv ⟨run_inv h₀.kernel .start c, fun d => ?_⟩
    (fun _ _ _ h hsafe hs => inv_lookStep h hsafe hs) hrun
  rw [h₀.look d]
  exact lookOk_off

theorem lookAccessed_live (h : LookInv s) {e : LookEvent n} (hsafe : LookSafe s e)
    (hx : x ∈ s.accessed e) : x ∈ s.kernel.live := by
  obtain ⟨⟨place, home, hinv⟩, hlook⟩ := h
  cases e with
  | sched e => exact accessed_live hinv hsafe.1 hx
  | look c spurious =>
      have hc := hlook c
      simp only [Lookups.accessed] at hx
      split at hx
      · rename_i tid i cur hl
        rw [List.mem_singleton] at hx
        exact hx ▸ live_target hinv (by rw [hc.taken tid i cur hl]; rfl)
      · exact hc.raw x (toList_some hx)

/-- A task with a holder has a count, and is not freed. -/
theorem held_not_freed (h : SchedInv k place home) {j : TaskPtr} (hj : k.Holds j x) :
    x ∈ k.live ∧ ∀ e, k.frees e ≠ some x := by
  have hgone := h.refs.targets j x ((h.refs.live j).mp hj.1) hj.2
  refine ⟨(h.refs.live x).mpr hgone, fun e he => ?_⟩
  have hpos : 0 < k.live.countP (fun j => (k.pc j).target = some x) :=
    List.countP_pos_iff.mpr ⟨j, hj.1, decide_eq_true hj.2⟩
  have hcount := h.refs.refs x hgone
  unfold Kernel.frees at he
  split at he
  · split at he
    · split at he
      · rename_i hzero
        obtain rfl := Option.some.inj he
        omega
      · cases he
    · cases he
  · cases he

/-- The step behind which a lookup touches a freed task. -/
theorem freed_accessed (h : LookInv s) {e : SchedEvent n} (hs : lookStep s (.sched e) = some s')
    (hf : s.kernel.frees e = some x) (hc : (s.look c).raw = some x) (spurious : Bool) :
    x ∈ s'.accessed (.look c spurious) ∧ x ∉ s'.kernel.live := by
  obtain ⟨⟨place, home, hinv⟩, _⟩ := h
  cases e with
  | tock d b =>
      obtain ⟨kernel, hk, rfl⟩ := Option.map_eq_some_iff.mp hs
      constructor
      · show x ∈ (match s.look c with
          | .taken _ _ cur => [cur]
          | l => l.raw.toList)
        split
        · rename_i hl
          rw [hl] at hc
          cases hc
        · exact Option.mem_toList.mpr hc
      · simp only [Kernel.frees] at hf
        split at hf
        · rename_i t ht
          split at hf
          · rename_i hzero
            obtain rfl := Option.some.inj hf
            simp only [schedStep, tickStep, ht, hzero, if_true, Option.some.injEq] at hk
            subst hk
            exact fun hm => (List.Nodup.mem_erase_iff hinv.refs.nodup).mp hm |>.1 rfl
          · cases hf
        · cases hf
  | _ => cases hf

end Steps

/-- The processor an event is one of. -/
def SchedEvent.cpu : SchedEvent n → Fin n
  | .call c _ => c
  | .go c => c
  | .alloc c _ => c
  | .flag c _ => c
  | .tick c => c
  | .tock c _ => c

def LookEvent.cpu : LookEvent n → Fin n
  | .sched e => e.cpu
  | .look c _ => c

/-- **No step touches a freed task**, and no task is freed that a lookup has returned and its caller
    has not released, in any run whose steps are safe. The other way round, the first step that frees
    a task whose pointer a lookup has leaves that lookup with a freed task to read. -/
theorem lookup_safe {s₀ s : Lookups n} {es : List (LookEvent n)} (h₀ : LookLoaded s₀)
    (hrun : Runs lookStep LookSafe s₀ es s) :
    (∀ e, LookSafe s e → ∀ x ∈ s.accessed e, x ∈ s.kernel.live) ∧
      (∀ j x, s.kernel.Holds j x → x ∈ s.kernel.live ∧ ∀ e, s.kernel.frees e ≠ some x) ∧
      ∀ e s' c x, lookStep s (.sched e) = some s' → s.kernel.frees e = some x →
        (s.look c).raw = some x → ∀ w, x ∈ s'.accessed (.look c w) ∧ x ∉ s'.kernel.live := by
  cases n with
  | zero =>
      refine ⟨fun e => e.cpu.elim0, fun j x hj => ?_, fun _ _ c => c.elim0⟩
      have hnil : s.kernel.live = [] := by
        cases hrun with
        | start => exact h₀.kernel.live
        | @step _ _ _ e => exact e.cpu.elim0
      exact absurd (hnil ▸ hj.1) List.not_mem_nil
  | succ m =>
      have h := run_lookInv h₀ hrun 0
      obtain ⟨place, home, hinv⟩ := h.1
      exact ⟨fun e hsafe x hx => lookAccessed_live h hsafe hx, fun j x hj => held_not_freed hinv hj,
        fun e s' c x hs hf hc w => freed_accessed h hs hf hc w⟩

/-! ## 7. Two processors -/

def lookups (n : Nat) : Lookups n :=
  { kernel := booted n, look := fun _ => .off, locked := fun _ => false }

theorem lookups_loaded (n : Nat) : LookLoaded (lookups n) :=
  ⟨booted_loaded n, fun _ => rfl, fun _ => rfl⟩

/-- A task at 2 on the first processor, and one at 3 with the id 4 on the second, both running. -/
def pairEvents : List (SchedEvent 2) :=
  spawnEvents 0 true 2 ++ spawnEvents 1 false 3 ++
    [.call 0 .yield, .go 0, .go 0, .go 0, .call 1 .yield, .go 1, .go 1, .go 1]

/-- The first task looks for the second, as far as the load of the second processor's `current`. -/
def loadEvents : List (LookEvent 2) :=
  (pairEvents ++ [.call 0 (.join 4), .go 0] : List (SchedEvent 2)).map .sched ++
    [.look 0 false, .look 0 false, .look 0 false, .look 0 false, .sched (.go 0), .look 0 false,
      .look 0 false, .look 0 false]

/-- The second task exits; the idle task enables interrupts, and the next one cleans up. -/
def exitEvents : List (SchedEvent 2) :=
  .call 1 .kill :: List.replicate 8 (.go 1) ++
    [.flag 1 true, .tick 1, .tock 1 false, .tock 1 false]

/-- The first task goes on with `cur->id == tid`. -/
theorem lookup_frees : ¬ ∀ (n : Nat) (s₀ s : Lookups n) (es : List (LookEvent n)), LookLoaded s₀ →
    Runs lookStep (fun _ _ => True) s₀ es s →
      ∀ e s', lookStep s e = some s' → ∀ x ∈ s.accessed e, x ∈ s.kernel.live := by
  intro hall
  have hend : (exec lookStep (lookups 2) (loadEvents ++ exitEvents.map .sched)).map (fun s =>
      (s.accessed (.look 0 false), s.kernel.live, (lookStep s (.look 0 false)).isSome)) =
      some ([3], [2, 0, 1], true) := by rfl
  obtain ⟨s, hs, he⟩ := Option.map_eq_some_iff.mp hend
  simp only [Prod.mk.injEq] at he
  obtain ⟨hacc, hlive, hsome⟩ := he
  obtain ⟨s', hs'⟩ := Option.isSome_iff_exists.mp hsome
  have hmem := hall 2 (lookups 2) s _ (lookups_loaded 2) (runs_exec hs) _ s' hs' 3
    (by rw [hacc]; exact List.mem_cons_self)
  rw [hlive] at hmem
  exact absurd hmem (by decide)

/-- `LookSafe`, computed. -/
def lookSafe (s : Lookups n) : LookEvent n → Bool
  | .sched e =>
      joinSafe s.kernel e &&
        match s.kernel.frees e with
        | some x => (List.finRange n).all fun c => decide ((s.look c).raw ≠ some x)
        | none => true
  | .look _ _ => true

theorem lookSafe_of {s : Lookups n} {e : LookEvent n} (h : lookSafe s e = true) : LookSafe s e := by
  cases e with
  | sched e =>
      obtain ⟨hjoin, hfree⟩ := Bool.and_eq_true_iff.mp h
      refine ⟨joinSafe_of hjoin, fun x hx c => ?_⟩
      rw [hx] at hfree
      exact of_decide_eq_true (List.all_eq_true.mp hfree c (List.mem_finRange c))
  | look c w => exact True.intro

/-- The same load, with the acquisition before the exit: the task outlives its end. -/
theorem lookup_safe_two : ∃ s : Lookups 2,
    s.kernel.Holds 2 3 ∧ s.kernel.state 3 = .zombie ∧ 3 ∈ s.kernel.live ∧
      ∀ e, s.kernel.frees e ≠ some 3 := by
  have hend : (execIf lookStep lookSafe (lookups 2) (loadEvents ++
      List.replicate 4 (.look 0 false) ++ exitEvents.map .sched)).map (fun s =>
      (s.kernel.live, s.kernel.pc 2, s.kernel.state 3)) =
      some ([3, 2, 0, 1], .joinCheck 3, .zombie) := by rfl
  obtain ⟨s, hs, he⟩ := Option.map_eq_some_iff.mp hend
  simp only [Prod.mk.injEq] at he
  obtain ⟨hlive, hpc, hzombie⟩ := he
  have hrun := runs_mono (fun _ _ => lookSafe_of) (runs_execIf hs)
  have hheld : s.kernel.Holds 2 3 := ⟨by rw [hlive]; decide, by rw [hpc]; rfl⟩
  exact ⟨s, hheld, hzombie, (lookup_safe (lookups_loaded 2) hrun).2.1 2 3 hheld⟩

end Slightx
