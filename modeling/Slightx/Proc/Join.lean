/-
  File:      Slightx/Proc/Join.lean
  Subject:   `task_join`: it finds its task, returns when that is a zombie, and the task is freed.

  Sources: kernel/proc/task.c (`task_join`, `task_acquire`, `task_release`),
  kernel/proc/scheduler/controller.c (`scheduler_get_task_by_id`, `scheduler_cleanup`).

  The lookup goes over the processors and looks at the run queue, the cleanup queue and the current
  task of each. A task that sleeps or waits is in none of them, nor is one that has just been taken
  off a run queue, and one without a reference is an assertion that fails.

  * `Kernel.Ahead` -- the task has a reference and is in a place the lookup has still to come to;
    `JoinFair` -- every look is for such a task, and task ids have not come around;
  * `Kernel.Writes` -- what a step may write of the records of other tasks;
  * `JoinInv` -- what a joiner knows at each point of `task_join`;
  * **`join_sound`** -- in every run of such steps a join never fails an assertion, finds its task,
    returns with a zombie, and the task stays in its cleanup queue until a pass over it frees it;
    a lookup for a task that is not ahead of it fails when nobody else moves;
  * `join_asleep` -- one processor: the target of the join sleeps
-/
import Mathlib.Data.List.Perm.Subperm
import Slightx.Proc.Lookup

namespace Slightx

open Lib Function

variable {n : Nat}

/-! ## 1. Where a lookup finds a task -/

def FindPhase.index : FindPhase → Nat
  | .tasks => 0
  | .cleanup => 1
  | .current => 2

/-- The places of the lookup, in its order. -/
def lookAt (cpuIdx : Nat) (phase : FindPhase) : Nat := 3 * cpuIdx + phase.index

/-- The lookup has been at its first `k` places, and comes to one where `x` is, or where it will be
    at the end of the `scheduler_yield` that has dequeued it. -/
def Kernel.Ahead (s : Kernel n) (x : TaskPtr) (k : Nat) : Prop :=
  s.refcount x ≠ 0 ∧ ∃ d : Fin n,
    s.Queued d x ∧ k ≤ lookAt d .tasks ∨ s.Cleaned d x ∧ k ≤ lookAt d .cleanup ∨
      s.current d = x ∧ k ≤ lookAt d .current ∨
      (∃ a, s.pc (s.current d) = .yieldSwitch a (some x)) ∧ k < lookAt d .current

/-- **Every look is for a task that is ahead of it**, no task id is given to two tasks, and
    `task_join` leaves by its second check as `JoinSafe` says. -/
def JoinFair (s : Kernel n) : SchedEvent n → Prop
  | .go c => JoinSafe s (.go c) ∧ ∀ tid cpuIdx phase,
      s.pc (s.current c) = .joinFind tid cpuIdx phase →
      ∃ x ∈ s.live, s.id x = tid ∧ s.detached x = false ∧ s.Ahead x (lookAt cpuIdx phase)
  | .alloc c _ => ∀ tid detached, s.pc (s.current c) = .spawnInit tid detached →
      ∀ y ∈ s.live, s.id y ≠ tid
  | _ => True

theorem JoinFair.safe {s : Kernel n} {e : SchedEvent n} (h : JoinFair s e) : JoinSafe s e := by
  cases e with
  | go c => exact h.1
  | _ => exact True.intro

/-! ## 2. What a step writes -/

/-- The task that takes the step. -/
def SchedEvent.moves (s : Kernel n) : SchedEvent n → Option TaskPtr
  | .call c _ => some (s.current c)
  | .go c => some (s.current c)
  | .alloc c _ => some (s.current c)
  | _ => none

/-- **The records of other tasks in a step on `c`**, taken by `own`. -/
structure Kernel.Writes (s s' : Kernel n) (place : TaskPtr → Place) (home : TaskPtr → Fin n)
    (c : Fin n) (own : Option TaskPtr) : Prop where
  id : ∀ u ∈ s.live, s'.id u = s.id u
  detached : ∀ u ∈ s.live, s'.detached u = s.detached u
  state : ∀ u ∈ s.live, own ≠ some u → s'.state u = s.state u ∨
    (place u ≠ .self ∧ place u ≠ .zombie) ∧ s'.state u ≠ .zombie
  blocker : ∀ u ∈ s.live, own ≠ some u → place u = .self → s'.blocker u = s.blocker u
  siblings : ∀ u ∈ s.live, place u = .zombie → home u ≠ c → s'.siblings u = s.siblings u
  count : ∀ u ∈ s.live, s.refcount u = 0 → s'.refcount u = 0
  cleanup : ∀ d, d ≠ c → s'.cleanup d = s.cleanup d
  tick : ∀ d, own ≠ none ∨ d ≠ c → s'.tick d = s.tick d

section Writes

variable {s s' : Kernel n} {place : TaskPtr → Place} {home : TaskPtr → Fin n} {c d : Fin n}
  {x t : TaskPtr} {own : Option TaskPtr}

/-- A step that changes no link. -/
theorem writes_quiet (hid : s'.id = s.id) (hdet : s'.detached = s.detached)
    (hstate : ∀ u, own ≠ some u → s'.state u = s.state u ∨
      (place u ≠ .self ∧ place u ≠ .zombie) ∧ s'.state u ≠ .zombie)
    (hblocker : ∀ u, own ≠ some u → place u = .self → s'.blocker u = s.blocker u)
    (hsiblings : s'.siblings = s.siblings) (hcount : ∀ u, s.refcount u = 0 → s'.refcount u = 0)
    (hcleanup : s'.cleanup = s.cleanup) (htick : ∀ d, own ≠ none ∨ d ≠ c → s'.tick d = s.tick d) :
    s.Writes s' place home c own where
  id := fun u _ => congrFun hid u
  detached := fun u _ => congrFun hdet u
  state := fun u _ => hstate u
  blocker := fun u _ => hblocker u
  siblings := fun u _ _ _ => congrFun hsiblings u
  count := fun u _ => hcount u
  cleanup := fun d _ => congrFun hcleanup d
  tick := htick

/-- A step that changes the counters, and the point of its own task. -/
theorem writes_counts (hid : s'.id = s.id) (hdet : s'.detached = s.detached)
    (hstate : s'.state = s.state) (hblocker : s'.blocker = s.blocker)
    (hsiblings : s'.siblings = s.siblings) (hcount : ∀ u, s.refcount u = 0 → s'.refcount u = 0)
    (hcleanup : s'.cleanup = s.cleanup) (htick : s'.tick = s.tick) : s.Writes s' place home c own :=
  writes_quiet hid hdet (fun u _ => Or.inl (congrFun hstate u)) (fun u _ _ => congrFun hblocker u)
    hsiblings hcount hcleanup fun d _ => congrFun htick d

theorem release_cases {s₁ : Kernel n} {p : Pc} (hs : (·.setPc t p) <$> taskRelease s₁ x = some s') :
    s₁.refcount x ≠ 0 ∧ s' = (s₁.setRefcount x (s₁.refcount x - 1)).setPc t p := by
  unfold taskRelease at hs
  split at hs
  · cases hs
  · rename_i hx
    exact ⟨hx, (Option.some.inj hs).symm⟩

theorem acquire_cases {p : Pc} (hs : (·.setPc t p) <$> taskAcquire s x = some s') :
    s.refcount x ≠ 0 ∧ s' = (s.setRefcount x (s.refcount x + 1)).setPc t p := by
  unfold taskAcquire at hs
  split at hs
  · cases hs
  · rename_i hx
    exact ⟨hx, (Option.some.inj hs).symm⟩

theorem find_id {siblings : TaskPtr → Links TaskPtr} {id : TaskPtr → Tid} {tid : Tid} {fuel : Nat}
    {head : Option TaskPtr} (hfind : runqueueFindById siblings id tid fuel head = some (some x)) :
    id x = tid := by
  induction fuel generalizing head with
  | zero => cases head <;> cases hfind
  | succ fuel ih =>
      cases head with
      | none => cases hfind
      | some a =>
          unfold runqueueFindById at hfind
          split at hfind
          · rename_i ha
            obtain rfl := Option.some.inj (Option.some.inj hfind)
            exact ha
          · exact ih hfind

/-- **A look goes on to the next place, or takes a reference** to a task with this id. -/
theorem find_cases {tid : Tid} {i : Nat} {phase : FindPhase}
    (hs : schedulerGetTaskById s t tid i phase = some s') :
    (∃ j phase', lookAt j phase' = lookAt i phase + 1 ∧ s' = s.setPc t (.joinFind tid j phase')) ∨
      ∃ x, (∃ d, s.Queued d x ∨ s.Cleaned d x ∨ s.current d = x) ∧ s.id x = tid ∧
        s.refcount x ≠ 0 ∧
        s' = (s.setRefcount x (s.refcount x + 1)).setPc t (.joinCheck x) := by
  unfold schedulerGetTaskById at hs
  split at hs
  · rename_i hi
    cases phase with
    | tasks =>
        obtain ⟨r, hr, hs⟩ := Option.bind_eq_some_iff.mp hs
        cases r with
        | none => exact Or.inl ⟨i, .cleanup, rfl, (Option.some.inj hs).symm⟩
        | some x =>
            exact Or.inr ⟨x, ⟨⟨i, hi⟩, Or.inl (find_reaches hr)⟩, find_id hr, acquire_cases hs⟩
    | cleanup =>
        obtain ⟨r, hr, hs⟩ := Option.bind_eq_some_iff.mp hs
        cases r with
        | none => exact Or.inl ⟨i, .current, rfl, (Option.some.inj hs).symm⟩
        | some x =>
            exact Or.inr ⟨x, ⟨⟨i, hi⟩, Or.inr (Or.inl (find_reaches hr))⟩, find_id hr,
              acquire_cases hs⟩
    | current =>
        dsimp only at hs
        split at hs
        · rename_i hcur
          exact Or.inr ⟨_, ⟨⟨i, hi⟩, Or.inr (Or.inr rfl)⟩, hcur.1, hcur.2,
            (Option.some.inj hs).symm⟩
        · refine Or.inl ⟨i + 1, .tasks, ?_, (Option.some.inj hs).symm⟩
          simp only [lookAt, FindPhase.index]
          omega
  · cases hs

theorem writes_release {s₁ : Kernel n} {p : Pc}
    (hs : (·.setPc t p) <$> taskRelease s₁ x = some s') (hid : s₁.id = s.id)
    (hdet : s₁.detached = s.detached) (hstate : s₁.state = s.state)
    (hblocker : s₁.blocker = s.blocker) (hsiblings : s₁.siblings = s.siblings)
    (hcount : s₁.refcount = s.refcount) (hcleanup : s₁.cleanup = s.cleanup)
    (htick : s₁.tick = s.tick) : s.Writes s' place home c own := by
  obtain ⟨hx, rfl⟩ := release_cases hs
  refine writes_counts hid hdet hstate hblocker hsiblings (fun u hu => ?_) hcleanup htick
  have hux : u ≠ x := by
    rintro rfl
    exact hx (by rw [hcount, hu])
  show update s₁.refcount x _ u = 0
  rw [update_of_ne hux, hcount, hu]

theorem writes_find {tid : Tid} {i : Nat} {phase : FindPhase}
    (hs : schedulerGetTaskById s t tid i phase = some s') : s.Writes s' place home c own := by
  rcases find_cases hs with ⟨j, phase', _, rfl⟩ | ⟨x, _, _, hx, rfl⟩
  · exact writes_counts rfl rfl rfl rfl rfl (fun _ => id) rfl rfl
  · refine writes_counts rfl rfl rfl rfl rfl (fun u hu => ?_) rfl rfl
    refine (update_of_ne ?_ _ _).trans hu
    rintro rfl
    exact hx hu

/-- An enqueue to the run queue of `d`, of a task that is no zombie. -/
theorem writes_enqueue (h : SchedInv s place home) (hx : place x ≠ .zombie) (hid : s'.id = s.id)
    (hdet : s'.detached = s.detached) (hstate : s'.state = s.state)
    (hblocker : s'.blocker = s.blocker)
    (hsiblings : s'.siblings = linkBack s.siblings (s.tasks d).tail x)
    (hcount : s'.refcount = s.refcount) (hcleanup : s'.cleanup = s.cleanup)
    (htick : ∀ d, own ≠ none ∨ d ≠ c → s'.tick d = s.tick d) : s.Writes s' place home c own where
  id := fun u _ => congrFun hid u
  detached := fun u _ => congrFun hdet u
  state := fun u _ _ => Or.inl (congrFun hstate u)
  blocker := fun u _ _ _ => congrFun hblocker u
  siblings := fun u _ hu _ => by
    rw [hsiblings]
    refine linkBack_of_ne (fun he => hx (he ▸ hu)) fun he => ?_
    have hq := threads_tail (h.queues (.tasks d)) he
    rw [hu] at hq
    cases hq
  count := fun u _ hu => hcount ▸ hu
  cleanup := fun d _ => congrFun hcleanup d
  tick := htick

/-- A task that was neither running nor a zombie is made ready. -/
theorem state_ready (hself : place x ≠ .self) (hzombie : place x ≠ .zombie) (u : TaskPtr) :
    update s.state x .ready u = s.state u ∨
      (place u ≠ .self ∧ place u ≠ .zombie) ∧ update s.state x .ready u ≠ .zombie := by
  by_cases hu : u = x
  · subst hu
    rw [update_self]
    exact Or.inr ⟨⟨hself, hzombie⟩, nofun⟩
  · exact Or.inl (update_of_ne hu _ _)

theorem dequeue_of_ne {q : Runqueue} {siblings : TaskPtr → Links TaskPtr}
    (h : ∀ x, q.head = some x → t ≠ x ∧ (siblings x).next ≠ some t) :
    (runqueueDequeue q siblings).2.2 t = siblings t := by
  unfold runqueueDequeue
  cases hq : q.head with
  | none => rfl
  | some x =>
      obtain ⟨htx, hnext⟩ := h x hq
      dsimp only
      rw [update_of_ne htx]
      cases hx : (siblings x).next with
      | none => rfl
      | some y => exact update_of_ne (fun he => hnext (hx.trans (congrArg some he.symm))) _ _

theorem schedulerSwitch_names (k : After) (r : Option TaskPtr) :
    (schedulerSwitch s c k r).id = s.id ∧ (schedulerSwitch s c k r).detached = s.detached := by
  unfold schedulerSwitch
  dsimp only
  split <;> split <;> exact ⟨rfl, rfl⟩

/-- The task that is taken from the queue was ready. -/
theorem writes_dequeue {k : After} (h : SchedInv s place home)
    (hp : s.pc (s.current c) = .yieldDequeue k) (hs : goStep s c = some s') :
    s.Writes s' place home c (some (s.current c)) := by
  dsimp only [goStep] at hs
  rw [hp] at hs
  obtain rfl := Option.some.inj hs
  have hq := h.queues (.tasks c)
  have hready : ∀ u, (place u).queue (home u) = some (.tasks c) → place u ≠ .zombie := by
    intro u hu he
    rw [he] at hu
    cases hu
  refine ⟨fun _ _ => rfl, fun _ _ => rfl, fun _ _ _ => Or.inl rfl, fun _ _ _ _ => rfl,
    fun u _ hu _ => dequeue_of_ne fun x hx => ?_, fun _ _ => id, fun _ _ => rfl, fun _ _ => rfl⟩
  have hmem : (place x).queue (home x) = some (.tasks c) :=
    (threads_reaches hq).mp (hx ▸ Reaches.here)
  refine ⟨?_, fun hn => hready u (threads_next hq hmem hn).1 hu⟩
  rintro rfl
  exact hready u hmem hu

/-- The task that will run was in the hands of the caller. -/
theorem writes_switch {k : After} {r : Option TaskPtr} (h : SchedInv s place home)
    (hp : s.pc (s.current c) = .yieldSwitch k r) (hs : goStep s c = some s') :
    s.Writes s' place home c (some (s.current c)) := by
  have hheld := switchTo_held (switchTo_of_inv h hp).1
  dsimp only [goStep] at hs
  rw [hp] at hs
  obtain rfl := Option.some.inj hs
  have hsw := schedulerSwitch_switched (s := s) (c := c) k r
  obtain ⟨hid, hdet⟩ := schedulerSwitch_names (s := s) (c := c) k r
  obtain ⟨hsib, _, hclean, _, hblk⟩ := hsw.links
  refine writes_quiet hid hdet (fun u _ => ?_) (fun u _ _ => congrFun hblk u) hsib
    (fun u hz => hsw.refcount ▸ hz) hclean fun d _ => congrFun hsw.tick d
  rw [hsw.state]
  split
  · rename_i hu
    obtain ⟨rfl, hne⟩ := hu
    cases r with
    | none => exact absurd rfl hne
    | some x =>
        have hx : place x = .held (s.current c) := hheld x rfl
        exact Or.inr ⟨⟨hx ▸ nofun, hx ▸ nofun⟩, nofun⟩
  · exact Or.inl rfl

/-- The last of the joiners waits, too. -/
theorem writes_joinAdd {x : TaskPtr} (h : SchedInv s place home)
    (hp : s.pc (s.current c) = .joinAdd x) (hs : goStep s c = some s') :
    s.Writes s' place home c (some (s.current c)) := by
  dsimp only [goStep] at hs
  rw [hp] at hs
  obtain ⟨r, hr, hs⟩ := Option.bind_eq_some_iff.mp hs
  obtain rfl := Option.some.inj hs
  have hx : place x ≠ .gone := h.refs.targets _ x (h.cpus c).current (by rw [hp]; rfl)
  obtain ⟨k, hk⟩ := h.waits x hx
  refine writes_quiet rfl rfl (fun _ _ => Or.inl rfl) (fun u hu hself => ?_) rfl (fun _ => id)
    rfl fun _ _ => rfl
  show r.2 u = s.blocker u
  rw [(waitqueueAdd_some hk hr).2]
  refine linkBack_of_ne (fun he => hu (congrArg some (Eq.symm he))) fun he => ?_
  have hw := threads_tail hk he
  cases hself.symm.trans hw

/-- The neighbours of a joiner are joiners. -/
theorem writes_joinDel {x : TaskPtr} (h : SchedInv s place home)
    (hp : s.pc (s.current c) = .joinDel x)
    (hlinked : Reaches s.blocker (s.current c) (s.joiners x).head) (hs : goStep s c = some s') :
    s.Writes s' place home c (some (s.current c)) := by
  dsimp only [goStep] at hs
  rw [hp] at hs
  obtain rfl := Option.some.inj hs
  have hx : place x ≠ .gone := h.refs.targets _ x (h.cpus c).current (by rw [hp]; rfl)
  obtain ⟨k, hk⟩ := h.waits x hx
  have hjoin := (threads_reaches hk).mp hlinked
  refine writes_quiet rfl rfl (fun _ _ => Or.inl rfl) (fun u hu hself => ?_) rfl (fun _ => id)
    rfl fun _ _ => rfl
  show (waitqueueDel (s.joiners x) (s.current c) s.blocker).2 u = s.blocker u
  rw [waitqueueDel_mem hk hjoin]
  show update (bypass s.blocker (s.current c)) (s.current c) _ u = s.blocker u
  rw [update_of_ne fun he => hu (congrArg some (Eq.symm he))]
  refine bypass_of_ne (fun he => ?_) fun he => ?_
  · have hw := threads_prev hk hjoin he
    cases hself.symm.trans hw
  · have hw := (threads_next hk hjoin he).1
    cases hself.symm.trans hw

/-- A task that ends goes behind the zombies of its processor. -/
theorem writes_killEnqueue (h : SchedInv s place home)
    (hp : s.pc (s.current c) = .killEnqueue) (hs : goStep s c = some s') :
    s.Writes s' place home c (some (s.current c)) := by
  have hstands := (h.tasks _ (h.cpus c).current).stands
  dsimp only [goStep] at hs
  rw [hp] at hs hstands
  obtain rfl := Option.some.inj hs
  refine ⟨fun _ _ => rfl, fun _ _ => rfl, fun _ _ _ => Or.inl rfl, fun _ _ _ _ => rfl,
    fun u _ hu hne => ?_, fun _ _ => id, fun d hd => update_of_ne hd _ _, fun _ _ => rfl⟩
  show linkBack s.siblings (s.cleanup c).tail (s.current c) u = s.siblings u
  refine linkBack_of_ne ?_ fun he => ?_
  · rintro rfl
    cases hstands.1.symm.trans hu
  · have hq := threads_tail (h.queues (.cleanup c)) he
    rw [hu] at hq
    exact hne (QueueId.cleanup.inj (Option.some.inj hq))

/-- **A step of the current task of `c`.** -/
theorem goStep_writes (h : SchedInv s place home)
    (hsafe : ∀ x, s.pc (s.current c) = .joinDel x →
      Reaches s.blocker (s.current c) (s.joiners x).head)
    (hs : goStep s c = some s') : s.Writes s' place home c (some (s.current c)) := by
  obtain ⟨l, _, hl, hin⟩ := h.hands (s.current c) (h.cpus c).current
  unfold Kernel.InHands at hin
  have hstands := (h.tasks _ (h.cpus c).current).stands
  have hown : ∀ p, s.Writes (s.setPc (s.current c) p) place home c (some (s.current c)) := fun p =>
    writes_counts rfl rfl rfl rfl rfl (fun _ => id) rfl rfl
  have hother : ∀ {α : Type} (f : TaskPtr → α) (a : α) u, some (s.current c) ≠ some u →
      update f (s.current c) a u = f u :=
    fun f a u hu => update_of_ne (fun he => hu (congrArg some (Eq.symm he))) a f
  have hgo := hs
  dsimp only [goStep] at hs
  cases hp : s.pc (s.current c) <;> rw [hp] at hs hin hstands
  case away | spawnInit => cases hs
  case spawnEnqueue x =>
      obtain rfl := Option.some.inj hs
      obtain ⟨rfl, _⟩ := hin
      have hx : place x ≠ .zombie := by
        rw [(hl x).mp List.mem_cons_self]
        exact nofun
      exact writes_enqueue (d := c) h hx rfl rfl rfl rfl rfl rfl rfl fun _ _ => rfl
  case yieldEnter k =>
      dsimp only at hs
      split at hs
      · obtain rfl := Option.some.inj hs
        exact writes_quiet rfl rfl (fun u hu => Or.inl (hother _ _ u hu)) (fun _ _ _ => rfl) rfl
          (fun _ => id) rfl fun _ _ => rfl
      · obtain rfl := Option.some.inj hs
        exact hown _
  case yieldEnqueue k =>
      obtain rfl := Option.some.inj hs
      have hx : place (s.current c) ≠ .zombie := by
        rw [hstands.2]
        exact nofun
      exact writes_enqueue (d := c) h hx rfl rfl rfl rfl rfl rfl rfl fun _ _ => rfl
  case yieldDequeue k => exact writes_dequeue h hp hgo
  case yieldSwitch k r => exact writes_switch h hp hgo
  case yieldBack k =>
      cases k with
      | killed => cases hs
      | joined x => exact writes_release hs rfl rfl rfl rfl rfl rfl rfl rfl
      | caller | slept =>
          obtain rfl := Option.some.inj hs
          exact writes_counts rfl rfl rfl rfl rfl (fun _ => id) rfl rfl
  case sleepBlock | joinBlock =>
      obtain rfl := Option.some.inj hs
      exact writes_quiet rfl rfl (fun u hu => Or.inl (hother _ _ u hu)) (fun _ _ _ => rfl) rfl
        (fun _ => id) rfl fun _ _ => rfl
  case joinFind tid i phase => exact writes_find hs
  case joinCheck x =>
      dsimp only at hs
      split at hs
      · cases hs
      · split at hs
        · exact writes_release hs rfl rfl rfl rfl rfl rfl rfl rfl
        · obtain rfl := Option.some.inj hs
          exact writes_quiet rfl rfl (fun _ _ => Or.inl rfl) (fun u hu _ => hother _ _ u hu) rfl
            (fun _ => id) rfl fun _ _ => rfl
  case joinAdd x => exact writes_joinAdd h hp hgo
  case joinRecheck x =>
      dsimp only at hs
      split at hs
      all_goals
        obtain rfl := Option.some.inj hs
        exact hown _
  case joinDel x => exact writes_joinDel h hp (hsafe x hp) hgo
  case joinLeave x => exact writes_release hs rfl rfl rfl rfl rfl rfl rfl rfl
  case killWake e =>
      cases e with
      | none =>
          obtain rfl := Option.some.inj hs
          exact writes_counts rfl rfl rfl rfl rfl (fun _ => id) rfl rfl
      | some e =>
          obtain rfl := Option.some.inj hs
          have he : place e = .held (s.current c) := by
            cases l with
            | nil => cases hin.1
            | cons a l =>
                obtain rfl := Option.some.inj hin.1.1
                exact (hl e).mp List.mem_cons_self
          refine writes_quiet rfl rfl (fun u _ => ?_) (fun u _ hu => ?_) rfl (fun _ => id) rfl
            fun _ _ => rfl
          · exact state_ready (he ▸ nofun) (he ▸ nofun) u
          · refine update_of_ne ?_ _ _
            rintro rfl
            cases he.symm.trans hu
  case killQueue e next =>
      obtain ⟨d, _, hs⟩ := Option.bind_eq_some_iff.mp hs
      obtain rfl := Option.some.inj hs
      obtain ⟨k, rfl, _⟩ := hin
      have hx : place e ≠ .zombie := by
        rw [(hl e).mp List.mem_cons_self]
        exact nofun
      exact writes_enqueue (d := d) h hx rfl rfl rfl rfl rfl rfl rfl fun _ _ => rfl
  case killEnqueue => exact writes_killEnqueue h hp hgo
  case killRelease => exact writes_release hs rfl rfl rfl rfl rfl rfl rfl rfl
  all_goals
    obtain rfl := Option.some.inj hs
    exact writes_counts rfl rfl rfl rfl rfl (fun _ => id) rfl rfl

/-- **A step of the timer interrupt.** -/
theorem tickStep_writes (h : SchedInv s place home) {b : Bool} (hs : tickStep s c b = some s') :
    s.Writes s' place home c none := by
  have hat := tickOk_iff.mp (h.cpus c).tick
  have htick : ∀ d, (none : Option TaskPtr) ≠ none ∨ d ≠ c → ∀ k, update s.tick c k d = s.tick d :=
    fun d hd k => update_of_ne (hd.resolve_left (absurd rfl)) _ _
  have hsame : ∀ k, s.Writes { s with tick := update s.tick c k } place home c none := fun k =>
    writes_quiet rfl rfl (fun _ _ => Or.inl rfl) (fun _ _ _ => rfl) rfl (fun _ => id) rfl
      fun d hd => htick d hd k
  unfold tickStep at hs
  cases ht : s.tick c with
  | off =>
      rw [ht] at hs
      cases hs
  | sleepers kept rest =>
      rw [ht] at hs hat
      cases rest with
      | nil =>
          obtain rfl := Option.some.inj hs
          exact hsame _
      | cons t rest =>
          dsimp only at hs
          split at hs
          · obtain rfl := Option.some.inj hs
            have hsleep : place t = .sleeping := (((h.cpus c).sleeping t).mp (by
              rw [show s.sleepers c = kept ++ t :: rest from hat]
              exact List.mem_append_right _ List.mem_cons_self)).1
            exact writes_quiet rfl rfl (fun u _ => state_ready (hsleep ▸ nofun) (hsleep ▸ nofun) u)
              (fun _ _ _ => rfl) rfl (fun _ => id) rfl fun d hd => htick d hd _
          · obtain rfl := Option.some.inj hs
            exact hsame _
  | waking kept t rest =>
      obtain ⟨_, hsleep, _⟩ := inv_waking h ht
      rw [ht] at hs
      obtain ⟨d, _, hs⟩ := Option.bind_eq_some_iff.mp hs
      obtain rfl := Option.some.inj hs
      exact writes_enqueue (d := d) h (hsleep ▸ nofun) rfl rfl rfl rfl rfl rfl rfl
        fun d hd => htick d hd _
  | cleaning e =>
      rw [ht] at hs hat
      cases e with
      | none =>
          obtain rfl := Option.some.inj hs
          exact hsame _
      | some t =>
          obtain ⟨hz, hh⟩ := hat t rfl
          dsimp only at hs
          split at hs
          · obtain rfl := Option.some.inj hs
            have hq := h.queues (.cleanup c)
            have hmem : (place t).queue (home t) = some (.cleanup c) := by
              rw [hz, hh]
              rfl
            have hc : ∀ u, (place u).queue (home u) = some (.cleanup c) → place u = .zombie →
                home u = c := by
              intro u hu he
              rw [he] at hu
              exact QueueId.cleanup.inj (Option.some.inj hu)
            refine ⟨fun _ _ => rfl, fun _ _ => rfl, fun _ _ _ => Or.inl rfl, fun _ _ _ _ => rfl,
              fun u _ hu hne => ?_, fun _ _ => id, fun d hd => update_of_ne hd _ _,
              fun d hd => htick d hd _⟩
            refine bypass_of_ne (fun he => hne ?_) fun he => hne ?_
            · have hw := threads_prev hq hmem he
              exact hc u hw hu
            · have hw := (threads_next hq hmem he).1
              exact hc u hw hu
          · obtain rfl := Option.some.inj hs
            exact hsame _

/-- **Every step.** -/
theorem step_writes (h : SchedInv s place home) {e : SchedEvent n} (hsafe : JoinSafe s e)
    (hs : schedStep s e = some s') : s.Writes s' place home e.cpu (e.moves s) := by
  cases e with
  | call c op =>
      simp only [schedStep] at hs
      split at hs
      · cases op <;> dsimp only [callOp] at hs
        case spawn | yield =>
            obtain rfl := Option.some.inj hs
            exact writes_counts rfl rfl rfl rfl rfl (fun _ => id) rfl rfl
        all_goals
          split at hs
          · cases hs
          · obtain rfl := Option.some.inj hs
            refine writes_quiet rfl rfl (fun u hu => Or.inl ?_) (fun u hu _ => ?_) rfl (fun _ => id)
              rfl fun _ _ => rfl
            all_goals
              first
                | rfl
                | exact update_of_ne (fun he => hu (congrArg some (Eq.symm he))) _ _
      · cases hs
  | go c =>
      simp only [schedStep] at hs
      split at hs
      · exact goStep_writes h hsafe hs
      · cases hs
  | alloc c x =>
      simp only [schedStep] at hs
      split at hs
      · rename_i hc
        split at hs
        · obtain rfl := Option.some.inj hs
          have hne : ∀ u ∈ s.live, u ≠ x := fun u hu he => hc.2 (he ▸ hu)
          exact ⟨fun u hu => update_of_ne (hne u hu) _ _, fun u hu => update_of_ne (hne u hu) _ _,
            fun u hu _ => Or.inl (update_of_ne (hne u hu) _ _),
            fun u hu _ _ => update_of_ne (hne u hu) _ _,
            fun u hu _ _ => update_of_ne (hne u hu) _ _,
            fun u hu hz => (update_of_ne (hne u hu) _ _).trans hz, fun _ _ => rfl, fun _ _ => rfl⟩
        · cases hs
      · cases hs
  | flag c b =>
      simp only [schedStep] at hs
      split at hs
      · obtain rfl := Option.some.inj hs
        exact writes_counts rfl rfl rfl rfl rfl (fun _ => id) rfl rfl
      · cases hs
  | tick c =>
      simp only [schedStep] at hs
      split at hs
      · obtain rfl := Option.some.inj hs
        exact writes_quiet rfl rfl (fun _ _ => Or.inl rfl) (fun _ _ _ => rfl) rfl (fun _ => id) rfl
          fun d hd => update_of_ne (hd.resolve_left (absurd rfl)) _ _
      · cases hs
  | tock c b => exact tickStep_writes h hs

end Writes

/-! ## 3. What a joiner knows -/

/-- A task at these points is killed. -/
def Pc.dying : Pc → Bool
  | .killTake => true
  | .killWake _ => true
  | .killQueue _ _ => true
  | .killEnqueue => true
  | p => p.dead

/-- The one a registered joiner waits for. -/
def Pc.waits : Pc → Option TaskPtr
  | .joinRecheck x => some x
  | .joinBlock x => some x
  | .yieldEnter k => k.target
  | .yieldEnqueue k => k.target
  | .yieldDequeue k => k.target
  | .yieldSwitch k _ => k.target
  | .yieldBack k => k.target
  | _ => none

/-- **What holds of a task at `p`**, where `pl` is its place. -/
def Kernel.JoinAt (s : Kernel n) (t : TaskPtr) (pl : Place) : Pc → Prop
  | .joinCheck x => s.detached x = false
  | .joinAdd _ => s.blocker t = ⟨none, none⟩
  | .joinDel x => s.state x = .zombie
  | .joinLeave x => s.state x = .zombie
  | p => ∀ x, p.waits = some x → pl = .joiners x ∨ s.state x = .zombie

/-- Two tasks have two ids. -/
def Kernel.IdsApart (s : Kernel n) : Prop :=
  ∀ a ∈ s.live, ∀ b ∈ s.live, s.id a = s.id b → a = b

/-- Task ids are apart, the killed tasks are the zombies, and every joiner is where it should be. -/
structure JoinInv (s : Kernel n) (place : TaskPtr → Place) : Prop where
  ids : s.IdsApart
  dying : ∀ t ∈ s.live, (s.pc t).dying = true ↔ s.state t = .zombie
  joins : ∀ t ∈ s.live, s.JoinAt t (place t) (s.pc t)

/-- **The points behind `p`.** -/
def Kernel.Next (s s' : Kernel n) (t : TaskPtr) : Pc → Pc → Prop
  | .joinFind tid i phase, q =>
      (∃ j phase', q = .joinFind tid j phase' ∧ lookAt j phase' = lookAt i phase + 1) ∨
        ∃ x ∈ s.live, q = .joinCheck x ∧ s.id x = tid
  | .joinCheck x, q =>
      q = .away ∧ s.state x = .zombie ∨ q = .joinAdd x ∧ s'.blocker t = ⟨none, none⟩
  | .joinAdd x, q => q = .joinRecheck x ∧ (s'.joiners x).tail = some t
  | .joinRecheck x, q => q = .joinDel x ∧ s.state x = .zombie ∨ q = .joinBlock x
  | .joinDel x, q => q = .joinLeave x
  | .joinLeave _, q => q = .away
  | .joinBlock x, q => q = .yieldEnter (.joined x)
  | .yieldEnter k, q => q = .yieldEnqueue k ∨ q = .yieldDequeue k
  | .yieldEnqueue k, q => q = .yieldDequeue k
  | .yieldDequeue k, q => ∃ r, q = .yieldSwitch k r
  | .yieldSwitch k _, q => q = .yieldBack k
  | .yieldBack k, q => q = .away ∧ k ≠ .killed
  | p, q => q.target = none ∧ q.dying = p.dying ∧ ∀ tid i phase, q ≠ .joinFind tid i phase

section Points

variable {s s' : Kernel n} {place place' : TaskPtr → Place} {home home' : TaskPtr → Fin n}
  {c : Fin n} {x t : TaskPtr}

theorem setPc_self (p : Pc) : (s.setPc t p).pc t = p := update_self _ _ _

theorem release_pc {s₁ : Kernel n} {p : Pc} (hs : (·.setPc t p) <$> taskRelease s₁ x = some s') :
    s'.pc t = p := by
  rw [(release_cases hs).2, setPc_self]

theorem find_next (h : SchedInv s place home) {tid : Tid} {i : Nat} {phase : FindPhase}
    (hs : schedulerGetTaskById s t tid i phase = some s') :
    s.Next s' t (.joinFind tid i phase) (s'.pc t) := by
  rcases find_cases hs with ⟨j, phase', hj, rfl⟩ | ⟨x, ⟨d, hx⟩, hid, _, rfl⟩
  · exact Or.inl ⟨j, phase', setPc_self _, hj⟩
  · refine Or.inr ⟨x, (h.refs.live x).mpr ?_, setPc_self _, hid⟩
    rcases hx with hx | hx | rfl
    · exact queue_not_gone (q := .tasks d) h hx
    · exact queue_not_gone (q := .cleanup d) h hx
    · exact (h.cpus d).current

/-- **The point of the task that moved.** -/
theorem goStep_next (h : SchedInv s place home) (hs : goStep s c = some s') :
    s.Next s' (s.current c) (s.pc (s.current c)) (s'.pc (s.current c)) := by
  dsimp only [goStep] at hs
  cases hp : s.pc (s.current c) <;> rw [hp] at hs
  case away | spawnInit => cases hs
  case joinFind tid i phase => exact find_next h hs
  case yieldEnter k =>
      dsimp only at hs
      split at hs
      · obtain rfl := Option.some.inj hs
        exact Or.inl (setPc_self _)
      · obtain rfl := Option.some.inj hs
        exact Or.inr (setPc_self _)
  case yieldEnqueue k =>
      obtain rfl := Option.some.inj hs
      exact setPc_self _
  case yieldDequeue k =>
      obtain rfl := Option.some.inj hs
      exact ⟨_, setPc_self _⟩
  case yieldSwitch k r =>
      obtain rfl := Option.some.inj hs
      rw [(schedulerSwitch_switched (s := s) (c := c) k r).pc, update_self]
      exact rfl
  case yieldBack k =>
      cases k with
      | killed => cases hs
      | joined x => exact ⟨release_pc hs, nofun⟩
      | caller | slept =>
          obtain rfl := Option.some.inj hs
          exact ⟨setPc_self _, nofun⟩
  case joinCheck x =>
      dsimp only at hs
      split at hs
      · cases hs
      · split at hs
        · rename_i hz
          exact Or.inl ⟨release_pc hs, hz⟩
        · obtain rfl := Option.some.inj hs
          exact Or.inr ⟨setPc_self _, update_self _ _ _⟩
  case joinAdd x =>
      obtain ⟨r, hr, hs⟩ := Option.bind_eq_some_iff.mp hs
      obtain rfl := Option.some.inj hs
      obtain ⟨k, hk⟩ := h.waits x (h.refs.targets _ x (h.cpus c).current (by rw [hp]; rfl))
      refine ⟨setPc_self _, ?_⟩
      show (update s.joiners x r.1 x).tail = some (s.current c)
      rw [update_self, (waitqueueAdd_some hk hr).1]
  case joinRecheck x =>
      dsimp only at hs
      split at hs
      · rename_i hz
        obtain rfl := Option.some.inj hs
        exact Or.inl ⟨setPc_self _, hz⟩
      · obtain rfl := Option.some.inj hs
        exact Or.inr (setPc_self _)
  case joinDel x | joinBlock x =>
      obtain rfl := Option.some.inj hs
      exact setPc_self _
  case joinLeave x => exact release_pc hs
  case killWake e =>
      cases e with
      | none | some e =>
          obtain rfl := Option.some.inj hs
          rw [setPc_self]
          exact ⟨rfl, rfl, nofun⟩
  case killQueue e next =>
      obtain ⟨d, _, hs⟩ := Option.bind_eq_some_iff.mp hs
      obtain rfl := Option.some.inj hs
      rw [setPc_self]
      exact ⟨rfl, rfl, nofun⟩
  case killRelease =>
      rw [release_pc hs]
      exact ⟨rfl, rfl, nofun⟩
  all_goals
    obtain rfl := Option.some.inj hs
    rw [setPc_self]
    exact ⟨rfl, rfl, nofun⟩

theorem next_dying {p q : Pc} (h : s.Next s' t p q) : q.dying = p.dying := by
  cases p
  case joinFind tid i phase => rcases h with ⟨j, phase', rfl, _⟩ | ⟨x, _, rfl, _⟩ <;> rfl
  case joinCheck x => rcases h with ⟨rfl, _⟩ | ⟨rfl, _⟩ <;> rfl
  case joinAdd x => rw [h.1]; rfl
  case joinRecheck x => rcases h with ⟨rfl, _⟩ | rfl <;> rfl
  case joinDel x | joinLeave x | joinBlock x => rw [show _ = _ from h]; rfl
  case yieldEnter k => rcases h with rfl | rfl <;> cases k <;> rfl
  case yieldEnqueue k | yieldSwitch k r => rw [show _ = _ from h]; cases k <;> rfl
  case yieldDequeue k => obtain ⟨r, rfl⟩ := h; cases k <;> rfl
  case yieldBack k =>
      obtain ⟨rfl, hk⟩ := h
      cases k with
      | killed => exact absurd rfl hk
      | _ => rfl
  all_goals exact h.2.1

theorem stands_dying {p : Pc} {pl : Place} {st : TaskStateType} (h : Stands p pl st)
    (hp : p.dying = true) : pl = .self ∨ pl = .zombie := by
  cases p
  case killTake | killWake | killQueue | killEnqueue => exact Or.inl h.1
  all_goals exact Or.inr ((stands_dead h).mpr hp)

/-- A task at work changes its own state only while it is not killed, and not to a zombie. -/
theorem goStep_state (h : SchedInv s place home) (hs : goStep s c = some s') :
    s'.state (s.current c) = s.state (s.current c) ∨
      (s.pc (s.current c)).dying = false ∧ s'.state (s.current c) ≠ .zombie := by
  obtain ⟨l, _, hl, hin⟩ := h.hands (s.current c) (h.cpus c).current
  unfold Kernel.InHands at hin
  have hstands := (h.tasks _ (h.cpus c).current).stands
  have hblocked : ∀ f : TaskPtr → TaskStateType, ∀ st, st ≠ .zombie →
      update f (s.current c) st (s.current c) ≠ .zombie := by
    intro f st hst
    rw [update_self]
    exact hst
  have hrelease : ∀ {s₁ : Kernel n} {x : TaskPtr} {p : Pc},
      (·.setPc (s.current c) p) <$> taskRelease s₁ x = some s' → s'.state = s₁.state := by
    intro s₁ x p hr
    rw [(release_cases hr).2]
    rfl
  dsimp only [goStep] at hs
  cases hp : s.pc (s.current c) <;> rw [hp] at hs hin hstands
  case away | spawnInit => cases hs
  case yieldEnter k =>
      dsimp only at hs
      split at hs
      · rename_i hrun
        obtain rfl := Option.some.inj hs
        refine Or.inr ⟨?_, hblocked _ _ nofun⟩
        rcases hstands with ⟨rfl, _⟩ | ⟨_, _, hst⟩
        · rfl
        · exact absurd hrun hst
      · obtain rfl := Option.some.inj hs
        exact Or.inl rfl
  case yieldSwitch k r =>
      obtain rfl := Option.some.inj hs
      obtain ⟨rfl, _⟩ := hin
      rw [(schedulerSwitch_switched (s := s) (c := c) k r).state]
      split
      · rename_i hnew
        cases r with
        | none => exact absurd rfl hnew.2
        | some x =>
            have hx : place (s.current c) = .held (s.current c) :=
              hnew.1 ▸ (hl x).mp List.mem_cons_self
            refine Or.inr ⟨?_, nofun⟩
            cases k with
            | killed => cases hx.symm.trans hstands
            | _ => rfl
      · exact Or.inl rfl
  case yieldBack k =>
      cases k with
      | killed => cases hs
      | joined x => exact Or.inl (congrFun (hrelease hs) _)
      | caller | slept =>
          obtain rfl := Option.some.inj hs
          exact Or.inl rfl
  case sleepBlock | joinBlock =>
      obtain rfl := Option.some.inj hs
      exact Or.inr ⟨rfl, hblocked _ _ nofun⟩
  case joinFind tid i phase =>
      rcases find_cases hs with ⟨j, phase', _, rfl⟩ | ⟨x, _, _, _, rfl⟩
      · exact Or.inl rfl
      · exact Or.inl rfl
  case joinCheck x =>
      dsimp only at hs
      split at hs
      · cases hs
      · split at hs
        · exact Or.inl (congrFun (hrelease hs) _)
        · obtain rfl := Option.some.inj hs
          exact Or.inl rfl
  case joinAdd x =>
      obtain ⟨r, _, hs⟩ := Option.bind_eq_some_iff.mp hs
      obtain rfl := Option.some.inj hs
      exact Or.inl rfl
  case joinRecheck x =>
      dsimp only at hs
      split at hs
      all_goals
        obtain rfl := Option.some.inj hs
        exact Or.inl rfl
  case joinLeave x | killRelease => exact Or.inl (congrFun (hrelease hs) _)
  case killWake e =>
      cases e with
      | none =>
          obtain rfl := Option.some.inj hs
          exact Or.inl rfl
      | some e =>
          obtain rfl := Option.some.inj hs
          have he : place e = .held (s.current c) := by
            cases l with
            | nil => cases hin.1
            | cons a l =>
                obtain rfl := Option.some.inj hin.1.1
                exact (hl e).mp List.mem_cons_self
          refine Or.inl (update_of_ne ?_ _ _)
          intro hce
          rw [hce, he] at hstands
          cases hstands.1
  case killQueue e next =>
      obtain ⟨d, _, hs⟩ := Option.bind_eq_some_iff.mp hs
      obtain rfl := Option.some.inj hs
      exact Or.inl rfl
  all_goals
    obtain rfl := Option.some.inj hs
    exact Or.inl rfl

/-! ## 4. Every step -/

theorem step_pc {e : SchedEvent n} (hs : schedStep s e = some s') (ht : t ∈ s.live)
    (hne : e.moves s ≠ some t) : s'.pc t = s.pc t := by
  have hown : ∀ {c}, some (s.current c) ≠ some t → t ≠ s.current c := fun h he => h (he ▸ rfl)
  cases e with
  | call c op =>
      simp only [schedStep] at hs
      split at hs
      · exact (callOp_local hs).pc t (hown hne)
      · cases hs
  | go c =>
      simp only [schedStep] at hs
      split at hs
      · exact (goStep_local hs).pc t (hown hne)
      · cases hs
  | alloc c x =>
      simp only [schedStep] at hs
      split at hs
      · rename_i hc
        split at hs
        · obtain rfl := Option.some.inj hs
          refine (update_of_ne (hown hne) _ _).trans (update_of_ne ?_ _ _)
          rintro rfl
          exact hc.2 ht
        · cases hs
      · cases hs
  | flag c b =>
      simp only [schedStep] at hs
      split at hs
      · obtain rfl := Option.some.inj hs
        rfl
      · cases hs
  | tick c =>
      simp only [schedStep] at hs
      split at hs
      · obtain rfl := Option.some.inj hs
        rfl
      · cases hs
  | tock c b => rw [(tickStep_frame hs).1]

/-- The records after a step are those before it, and a new one. -/
theorem step_live {e : SchedEvent n} (hs : schedStep s e = some s') (ht : t ∈ s'.live) :
    t ∈ s.live ∨ ∃ c tid detached, e = .alloc c t ∧ s.pc (s.current c) = .spawnInit tid detached ∧
      t ∉ s.live ∧ s' = (taskInit s t tid detached).setPc (s.current c) (.spawnEnqueue t) := by
  cases e with
  | call c op =>
      simp only [schedStep] at hs
      split at hs
      · exact Or.inl ((callOp_local hs).live ▸ ht)
      · cases hs
  | go c =>
      simp only [schedStep] at hs
      split at hs
      · exact Or.inl ((goStep_local hs).live ▸ ht)
      · cases hs
  | alloc c x =>
      simp only [schedStep] at hs
      split at hs
      · rename_i hc
        split at hs
        · rename_i tid detached hp
          obtain rfl := Option.some.inj hs
          rcases List.mem_cons.mp ht with rfl | ht
          · exact Or.inr ⟨c, tid, detached, rfl, hp, hc.2, rfl⟩
          · exact Or.inl ht
        · cases hs
      · cases hs
  | flag c b =>
      simp only [schedStep] at hs
      split at hs
      · obtain rfl := Option.some.inj hs
        exact Or.inl ht
      · cases hs
  | tick c =>
      simp only [schedStep] at hs
      split at hs
      · obtain rfl := Option.some.inj hs
        exact Or.inl ht
      · cases hs
  | tock c b =>
      unfold schedStep tickStep at hs
      dsimp only at hs
      refine Or.inl ?_
      split at hs
      · cases hs
      · obtain rfl := Option.some.inj hs
        exact ht
      · split at hs
        all_goals
          obtain rfl := Option.some.inj hs
          exact ht
      · obtain ⟨d, _, hs⟩ := Option.bind_eq_some_iff.mp hs
        obtain rfl := Option.some.inj hs
        exact ht
      · obtain rfl := Option.some.inj hs
        exact ht
      · split at hs
        · obtain rfl := Option.some.inj hs
          exact List.mem_of_mem_erase ht
        · obtain rfl := Option.some.inj hs
          exact ht

/-- The task that calls an operation was not killed; a kill makes it a zombie. -/
theorem callOp_dying {op : SchedOp} (hs : callOp s c op = some s')
    (haway : s.state (s.current c) ≠ .zombie) :
    (s'.pc (s.current c)).dying = true ↔ s'.state (s.current c) = .zombie := by
  cases op <;> dsimp only [callOp] at hs
  case spawn | yield =>
      obtain rfl := Option.some.inj hs
      rw [setPc_self]
      exact iff_of_false nofun haway
  all_goals
    split at hs
    · cases hs
    · obtain rfl := Option.some.inj hs
      rw [setPc_self]
      first
        | exact iff_of_false nofun haway
        | exact iff_of_true rfl (update_self _ _ _)

/-- **The killed tasks stay the zombies.** -/
theorem step_zombies (h : SchedInv s place home)
    (hdying : ∀ t ∈ s.live, (s.pc t).dying = true ↔ s.state t = .zombie) {e : SchedEvent n}
    (hsafe : JoinSafe s e) (hs : schedStep s e = some s') (ht : t ∈ s.live) :
    (s.state t = .zombie → s'.state t = .zombie) ∧
      ((s'.pc t).dying = true ↔ s'.state t = .zombie) := by
  have hw := step_writes h hsafe hs
  have hold := hdying t ht
  by_cases hne : e.moves s = some t
  · cases e with
    | call c op =>
        obtain rfl := Option.some.inj hne
        simp only [schedStep] at hs
        split at hs
        · rename_i hc
          rw [hc.2] at hold
          have haway : s.state (s.current c) ≠ .zombie := fun he => by cases hold.mpr he
          exact ⟨fun he => absurd he haway, callOp_dying hs haway⟩
        · cases hs
    | go c =>
        obtain rfl := Option.some.inj hne
        simp only [schedStep] at hs
        split at hs
        · rw [next_dying (goStep_next h hs), hold]
          rcases goStep_state h hs with he | ⟨hd, he⟩
          · rw [he]
            exact ⟨id, Iff.rfl⟩
          · have hz : s.state (s.current c) ≠ .zombie := fun hz => by
              rw [hold.mpr hz] at hd
              cases hd
            exact ⟨fun hz' => absurd hz' hz, iff_of_false hz he⟩
        · cases hs
    | alloc c x =>
        obtain rfl := Option.some.inj hne
        simp only [schedStep] at hs
        split at hs
        · rename_i hc
          split at hs
          · rename_i tid detached hp
            obtain rfl := Option.some.inj hs
            have hx : s.current c ≠ x := fun he => hc.2 (he ▸ ht)
            have hst : ((taskInit s x tid detached).setPc (s.current c) (.spawnEnqueue x)).state
                (s.current c) = s.state (s.current c) := update_of_ne hx _ _
            rw [hp] at hold
            rw [hst, setPc_self]
            exact ⟨id, hold⟩
          · cases hs
        · cases hs
    | flag c b | tick c | tock c b => cases hne
  · rw [step_pc hs ht hne, hold]
    rcases hw.state t ht hne with he | ⟨hpl, he⟩
    · rw [he]
      exact ⟨id, Iff.rfl⟩
    · have hz : s.state t ≠ .zombie := by
        intro hz
        have hp := stands_dying (h.tasks t ((h.refs.live t).mp ht)).stands (hold.mpr hz)
        exact hp.elim hpl.1 hpl.2
      exact ⟨fun hz' => absurd hz' hz, iff_of_false hz he⟩

theorem joinAt_none {pl : Place} {q : Pc} (hq : q.target = none) : s.JoinAt t pl q := by
  cases q
  case joinCheck | joinAdd | joinDel | joinLeave => cases hq
  case joinRecheck | joinBlock => cases hq
  case yieldEnter k | yieldEnqueue k | yieldDequeue k | yieldSwitch k r | yieldBack k =>
      exact fun x hx => nomatch hq.symm.trans hx
  all_goals exact nofun

/-- Nobody takes away what a joiner knows. -/
theorem joinAt_carry {pl pl' : Place} {p : Pc}
    (hdet : ∀ x, p.target = some x → s'.detached x = s.detached x)
    (hblocker : ∀ x, p = .joinAdd x → s'.blocker t = s.blocker t)
    (hz : ∀ x, p.target = some x → s.state x = .zombie → s'.state x = .zombie)
    (hpl : ∀ x, p.target = some x → (∀ y, p ≠ .joinDel y) → pl = .joiners x →
      pl' = .joiners x ∨ s'.state x = .zombie)
    (h : s.JoinAt t pl p) : s'.JoinAt t pl' p := by
  cases p
  case joinCheck x => exact (hdet x rfl).trans h
  case joinAdd x => exact (hblocker x rfl).trans h
  case joinDel x | joinLeave x => exact hz x rfl h
  all_goals
    intro x hx
    exact (h x hx).elim (hpl x hx nofun) fun he => Or.inr (hz x hx he)

/-- **Every step of a joiner** leads to a point where it knows what it should. -/
theorem joinAt_go (h' : SchedInv s' place' home') (hlive : t ∈ s'.live)
    (hfind : ∀ tid i phase, s.pc t = .joinFind tid i phase → ∀ x ∈ s.live, s.id x = tid →
      s'.detached x = false)
    (hz : ∀ x, (s.pc t).target = some x → s.state x = .zombie → s'.state x = .zombie)
    (hpl : ∀ x, (s.pc t).target = some x → (∀ y, s.pc t ≠ .joinDel y) → place t = .joiners x →
      place' t = .joiners x ∨ s'.state x = .zombie)
    (h : s.JoinAt t (place t) (s.pc t)) (hnext : s.Next s' t (s.pc t) (s'.pc t)) :
    s'.JoinAt t (place' t) (s'.pc t) := by
  have hcarry : ∀ x, (s.pc t).target = some x → (∀ y, s.pc t ≠ .joinDel y) →
      place t = .joiners x ∨ s.state x = .zombie → place' t = .joiners x ∨ s'.state x = .zombie :=
    fun x hx hne he => he.elim (hpl x hx hne) fun he => Or.inr (hz x hx he)
  cases hp : s.pc t <;> rw [hp] at hfind hz hcarry h hnext
  case joinFind tid i phase =>
      rcases hnext with ⟨j, phase', hq, _⟩ | ⟨x, hx, hq, hid⟩
      · rw [hq]
        exact joinAt_none rfl
      · rw [hq]
        exact hfind tid i phase rfl x hx hid
  case joinCheck x =>
      rcases hnext with ⟨hq, _⟩ | ⟨hq, hb⟩
      · rw [hq]
        exact joinAt_none rfl
      · rw [hq]
        exact hb
  case joinAdd x =>
      obtain ⟨hq, htail⟩ := hnext
      have hx : place' x ≠ .gone :=
        h'.refs.targets t x ((h'.refs.live t).mp hlive) (by rw [hq]; rfl)
      obtain ⟨k, hk⟩ := h'.waits x hx
      have hreg := threads_tail hk htail
      rw [hq]
      intro y hy
      obtain rfl := Option.some.inj hy
      exact Or.inl hreg
  case joinRecheck x =>
      rcases hnext with ⟨hq, he⟩ | hq
      · rw [hq]
        exact hz x rfl he
      · rw [hq]
        intro y hy
        exact hcarry y hy nofun (h y hy)
  case joinDel x =>
      rw [show s'.pc t = _ from hnext]
      exact hz x rfl h
  case joinLeave x =>
      rw [show s'.pc t = _ from hnext]
      exact joinAt_none rfl
  case joinBlock x =>
      rw [show s'.pc t = _ from hnext]
      intro y hy
      exact hcarry y hy nofun (h y hy)
  case yieldEnter k =>
      rcases hnext with hq | hq
      all_goals
        rw [hq]
        intro y hy
        exact hcarry y hy nofun (h y hy)
  case yieldEnqueue k | yieldSwitch k r =>
      rw [show s'.pc t = _ from hnext]
      intro y hy
      exact hcarry y hy nofun (h y hy)
  case yieldDequeue k =>
      obtain ⟨r, hq⟩ := hnext
      rw [hq]
      intro y hy
      exact hcarry y hy nofun (h y hy)
  case yieldBack k =>
      rw [hnext.1]
      exact joinAt_none rfl
  all_goals exact joinAt_none hnext.1

/-- The points a task gets to by a call or a spawn are none of a registered joiner. -/
theorem moved_target {e : SchedEvent n} (hs : schedStep s e = some s') (hne : e.moves s = some t)
    (hgo : ∀ c, e ≠ .go c) : (s'.pc t).target = none := by
  cases e with
  | call c op =>
      obtain rfl := Option.some.inj hne
      simp only [schedStep] at hs
      split at hs
      · cases op <;> dsimp only [callOp] at hs
        case spawn | yield =>
            obtain rfl := Option.some.inj hs
            rw [setPc_self]
            rfl
        all_goals
          split at hs
          · cases hs
          · obtain rfl := Option.some.inj hs
            rw [setPc_self]
            rfl
      · cases hs
  | go c => exact absurd rfl (hgo c)
  | alloc c x =>
      obtain rfl := Option.some.inj hne
      simp only [schedStep] at hs
      split at hs
      · split at hs
        · obtain rfl := Option.some.inj hs
          rw [setPc_self]
          rfl
        · cases hs
      · cases hs
  | flag c b | tick c | tock c b => cases hne

/-- **Every step keeps what the joiners know.** -/
theorem joinInv_step (h : SchedInv s place home) (hj : JoinInv s place) {e : SchedEvent n}
    (hfair : JoinFair s e) (hs : schedStep s e = some s') (h' : SchedInv s' place' home')
    (hstay : s.Stays place place' home home') : JoinInv s' place' := by
  have hw := step_writes h hfair.safe hs
  have hzom := fun t (ht : t ∈ s.live) => step_zombies h hj.dying hfair.safe hs ht
  have htarget : ∀ t ∈ s.live, ∀ x, (s.pc t).target = some x → x ∈ s.live := fun t ht x hx =>
    (h.refs.live x).mpr (h.refs.targets t x ((h.refs.live t).mp ht) hx)
  have hnew : ∀ c x tid detached, x ∉ s.live →
      s' = (taskInit s x tid detached).setPc (s.current c) (.spawnEnqueue x) →
      s'.id x = tid ∧ s'.pc x = .away ∧ s'.state x = .ready := by
    rintro c x tid detached hx rfl
    have hxc : x ≠ s.current c := fun he => hx (he ▸ live_current h c)
    exact ⟨update_self _ _ _, (update_of_ne hxc _ _).trans (update_self _ _ _), update_self _ _ _⟩
  refine
    { ids := fun a ha b hb he => ?_
      dying := fun t ht => ?_
      joins := fun t ht => ?_ }
  · rcases step_live hs ha with ha | ⟨c, tid, det, rfl, hp, hna, hsa⟩
    · rcases step_live hs hb with hb | ⟨c, tid, det, rfl, hp, hnb, hsb⟩
      · exact hj.ids a ha b hb ((hw.id a ha).symm.trans (he.trans (hw.id b hb)))
      · refine absurd ?_ (hfair tid det hp a ha)
        exact (hw.id a ha).symm.trans (he.trans (hnew c b tid det hnb hsb).1)
    · rcases step_live hs hb with hb | ⟨c', tid', det', heq, _⟩
      · refine absurd ?_ (hfair tid det hp b hb)
        exact (hw.id b hb).symm.trans (he.symm.trans (hnew c a tid det hna hsa).1)
      · cases heq
        rfl
  · rcases step_live hs ht with ht | ⟨c, tid, det, rfl, hp, hnt, hst⟩
    · exact (hzom t ht).2
    · obtain ⟨_, hpc, hstate⟩ := hnew c t tid det hnt hst
      rw [hpc, hstate]
      exact iff_of_false nofun nofun
  · have hlive' := ht
    rcases step_live hs ht with ht | ⟨c, tid, det, rfl, hp, hnt, hst⟩
    · have hpl : ∀ x, (s.pc t).target = some x → (∀ y, s.pc t ≠ .joinDel y) →
          place t = .joiners x → place' t = .joiners x ∨ s'.state x = .zombie := by
        intro x hx hne hpl
        rcases hstay.waits t x hpl with he | he | he
        · exact Or.inl he
        · exact absurd he (hne x)
        · have hlive := htarget t ht x hx
          exact Or.inr ((hzom x hlive).1 ((hj.dying x hlive).mp (by rw [he]; rfl)))
      have hz : ∀ x, (s.pc t).target = some x → s.state x = .zombie → s'.state x = .zombie :=
        fun x hx => (hzom x (htarget t ht x hx)).1
      by_cases hne : e.moves s = some t
      · by_cases hgo : ∃ c, e = .go c
        · obtain ⟨c, rfl⟩ := hgo
          obtain rfl := Option.some.inj hne
          refine joinAt_go h' hlive' (fun tid i phase hp x hx hid => ?_) hz hpl
            (hj.joins _ ht) ?_
          · obtain ⟨y, hy, hidy, hdet, _⟩ := hfair.2 tid i phase hp
            obtain rfl := hj.ids x hx y hy (hid.trans hidy.symm)
            rw [hw.detached x hx, hdet]
          · simp only [schedStep] at hs
            split at hs
            · exact goStep_next h hs
            · cases hs
        · exact joinAt_none (moved_target hs hne fun c hc => hgo ⟨c, hc⟩)
      · rw [step_pc hs ht hne]
        refine joinAt_carry (fun x hx => hw.detached x (htarget t ht x hx)) (fun x hx => ?_) hz hpl
          (hj.joins t ht)
        have hst := (h.tasks t ((h.refs.live t).mp ht)).stands
        rw [hx] at hst
        exact hw.blocker t ht hne hst.1
    · rw [(hnew c t tid det hnt hst).2.1]
      exact joinAt_none rfl

end Points

/-! ## 5. The steps of `task_join` -/

/-- The task is in `task_join`. -/
def Pc.joins : Pc → Bool
  | .joinFind _ _ _ => true
  | p => p.target.isSome

/-- `x` has no reference, is linked in the cleanup queue of `d`, and the pass over it, if there is
    one, has not been at `x`. -/
def Kernel.Due (s : Kernel n) (d : Fin n) (x : TaskPtr) : Prop :=
  s.refcount x = 0 ∧ s.Cleaned d x ∧ ∀ e, s.tick d = .cleaning e → Reaches s.siblings x e

section Joins

variable {s s' : Kernel n} {place place' : TaskPtr → Place} {home home' : TaskPtr → Fin n}
  {c d : Fin n} {x t : TaskPtr}

theorem find_follows {siblings : TaskPtr → Links TaskPtr} {id : TaskPtr → Tid} {tid : Tid}
    {fuel : Nat} {head : Option TaskPtr} {l : List TaskPtr} (hf : Lib.Follows siblings head l)
    (hl : l.length ≤ fuel) :
    runqueueFindById siblings id tid fuel head = some (l.find? fun x => id x = tid) := by
  induction l generalizing fuel head with
  | nil =>
      rw [show head = none from hf]
      cases fuel <;> rfl
  | cons a l ih =>
      obtain ⟨rfl, hf⟩ := hf
      cases fuel with
      | zero => cases hl
      | succ fuel =>
          unfold runqueueFindById
          by_cases ha : id a = tid
          · rw [if_pos ha, List.find?_cons_of_pos (by simpa using ha)]
          · rw [if_neg ha, List.find?_cons_of_neg (by simpa using ha)]
            exact ih hf (Nat.le_of_succ_le_succ hl)

/-- **The search in a queue** ends, and finds the task with this id if it is linked there. -/
theorem find_queue (h : SchedInv s place home) (hids : s.IdsApart) (q : QueueId n)
    (hx : x ∈ s.live) :
    runqueueFindById s.siblings s.id (s.id x) (s.live.length + 1) (s.queue q).head = some (some x) ∧
        Reaches s.siblings x (s.queue q).head ∨
      runqueueFindById s.siblings s.id (s.id x) (s.live.length + 1) (s.queue q).head = some none ∧
        ¬ Reaches s.siblings x (s.queue q).head := by
  obtain ⟨l, hnd, hl, hf⟩ := threads_follows (h.queues q)
  have hlive : ∀ y ∈ l, y ∈ s.live := fun y hy => live_queue h ((hl y).mp hy)
  have hlen : l.length ≤ s.live.length := (hnd.subperm hlive).length_le
  rw [find_follows hf (by omega)]
  have hreach : Reaches s.siblings x (s.queue q).head ↔ x ∈ l :=
    (threads_reaches (h.queues q)).trans (hl x).symm
  cases hfind : l.find? fun y => s.id y = s.id x with
  | some y =>
      have hy := List.mem_of_find?_eq_some hfind
      obtain rfl := hids y (hlive y hy) x hx (by simpa using List.find?_some hfind)
      exact Or.inl ⟨rfl, hreach.mpr hy⟩
  | none =>
      refine Or.inr ⟨rfl, fun hr => ?_⟩
      have hne := List.find?_eq_none.mp hfind x (hreach.mp hr)
      exact hne (by simp)

/-- **One look.** It takes a reference to the task if it is there, which fails where the task has
    none, and goes on if it is not there. -/
theorem look_cases (h : SchedInv s place home) (hids : s.IdsApart) {i : Nat} (phase : FindPhase)
    (hi : i < n) (hx : x ∈ s.live) :
    let here := match phase with
      | .tasks => s.Queued ⟨i, hi⟩ x
      | .cleanup => s.Cleaned ⟨i, hi⟩ x
      | .current => s.current ⟨i, hi⟩ = x ∧ s.refcount x ≠ 0
    (here → schedulerGetTaskById s t (s.id x) i phase =
        (·.setPc t (.joinCheck x)) <$> taskAcquire s x) ∧
      (¬ here → ∃ j phase', lookAt j phase' = lookAt i phase + 1 ∧
        schedulerGetTaskById s t (s.id x) i phase =
          some (s.setPc t (.joinFind (s.id x) j phase'))) := by
  cases phase with
  | tasks =>
      dsimp only
      unfold schedulerGetTaskById
      rw [dif_pos hi]
      rcases find_queue h hids (.tasks ⟨i, hi⟩) hx with ⟨hf, hr⟩ | ⟨hf, hr⟩
      · refine ⟨fun _ => ?_, fun hn => absurd hr hn⟩
        rw [show runqueueFindById _ _ _ _ (s.tasks ⟨i, hi⟩).head = _ from hf]
        rfl
      · refine ⟨fun hh => absurd hh hr, fun _ => ⟨i, .cleanup, rfl, ?_⟩⟩
        rw [show runqueueFindById _ _ _ _ (s.tasks ⟨i, hi⟩).head = _ from hf]
        rfl
  | cleanup =>
      dsimp only
      unfold schedulerGetTaskById
      rw [dif_pos hi]
      rcases find_queue h hids (.cleanup ⟨i, hi⟩) hx with ⟨hf, hr⟩ | ⟨hf, hr⟩
      · refine ⟨fun _ => ?_, fun hn => absurd hr hn⟩
        rw [show runqueueFindById _ _ _ _ (s.cleanup ⟨i, hi⟩).head = _ from hf]
        rfl
      · refine ⟨fun hh => absurd hh hr, fun _ => ⟨i, .current, rfl, ?_⟩⟩
        rw [show runqueueFindById _ _ _ _ (s.cleanup ⟨i, hi⟩).head = _ from hf]
        rfl
  | current =>
      dsimp only
      unfold schedulerGetTaskById
      rw [dif_pos hi]
      dsimp only
      refine ⟨fun hh => ?_, fun hn => ⟨i + 1, .tasks, ?_, ?_⟩⟩
      · obtain ⟨rfl, hcount⟩ := hh
        rw [if_pos ⟨rfl, hcount⟩]
        unfold taskAcquire
        rw [if_neg hcount]
        rfl
      · simp only [lookAt, FindPhase.index]
        omega
      · rw [if_neg]
        rintro ⟨hid, hcount⟩
        have hcur := hids _ (live_current h ⟨i, hi⟩) x hx hid
        exact hn ⟨hcur, hcur ▸ hcount⟩

theorem acquire_some (hx : s.refcount x ≠ 0) {p : Pc} :
    (·.setPc t p) <$> taskAcquire s x = some ((s.setRefcount x (s.refcount x + 1)).setPc t p) := by
  unfold taskAcquire
  rw [if_neg hx]
  rfl

theorem release_some (hx : s.refcount x ≠ 0) {p : Pc} :
    (·.setPc t p) <$> taskRelease s x = some ((s.setRefcount x (s.refcount x - 1)).setPc t p) := by
  unfold taskRelease
  rw [if_neg hx]
  rfl

/-- The processor a lookup is at. -/
theorem ahead_cpu {i : Nat} {phase : FindPhase} (ha : s.Ahead x (lookAt i phase)) : i < n := by
  obtain ⟨_, d, hd⟩ := ha
  have hle : lookAt i phase ≤ lookAt d .current := by
    rcases hd with ⟨_, hk⟩ | ⟨_, hk⟩ | ⟨_, hk⟩ | ⟨_, hk⟩
    all_goals
      simp only [lookAt, FindPhase.index] at hk ⊢
      omega
  have hlt := d.isLt
  cases phase <;> simp only [lookAt, FindPhase.index] at hle <;> omega

/-- **A look for a task that is ahead** finds it, or goes on to one of the places that are left. -/
theorem look_ahead (h : SchedInv s place home) (hids : s.IdsApart) {i : Nat} {phase : FindPhase}
    (hx : x ∈ s.live) (ha : s.Ahead x (lookAt i phase)) :
    ∃ s', schedulerGetTaskById s t (s.id x) i phase = some s' ∧
      (s'.pc t = .joinCheck x ∨ ∃ j phase', lookAt j phase' = lookAt i phase + 1 ∧
        lookAt j phase' < 3 * n ∧ s'.pc t = .joinFind (s.id x) j phase') := by
  have hi := ahead_cpu ha
  obtain ⟨hhere, hon⟩ := look_cases (t := t) h hids phase hi hx
  obtain ⟨hcount, d, hd⟩ := ha
  have hlt := d.isLt
  by_cases hnow : match phase with
      | .tasks => s.Queued ⟨i, hi⟩ x
      | .cleanup => s.Cleaned ⟨i, hi⟩ x
      | .current => s.current ⟨i, hi⟩ = x ∧ s.refcount x ≠ 0
  · exact ⟨_, (hhere hnow).trans (acquire_some hcount), Or.inl (setPc_self _)⟩
  · obtain ⟨j, phase', hj, hs⟩ := hon hnow
    refine ⟨_, hs, Or.inr ⟨j, phase', hj, ?_, setPc_self _⟩⟩
    rw [hj]
    have hplace : ∀ phase₀ : FindPhase, lookAt i phase = lookAt d phase₀ →
        phase = phase₀ ∧ i = d := by
      intro phase₀ he
      cases phase <;> cases phase₀ <;> simp only [lookAt, FindPhase.index] at he <;>
        first | exact ⟨rfl, by omega⟩ | omega
    rcases hd with ⟨hq, hk⟩ | ⟨hq, hk⟩ | ⟨hq, hk⟩ | ⟨_, hk⟩
    · simp only [lookAt, FindPhase.index] at hk ⊢
      omega
    · simp only [lookAt, FindPhase.index] at hk ⊢
      omega
    · have hne : lookAt i phase ≠ lookAt d .current := by
        intro he
        obtain ⟨rfl, rfl⟩ := hplace _ he
        exact hnow ⟨hq, hcount⟩
      simp only [lookAt, FindPhase.index] at hk hne ⊢
      omega
    · simp only [lookAt, FindPhase.index] at hk ⊢
      omega

/-- A task somebody holds has a count. -/
theorem held_count (h : SchedInv s place home) (ht : s.Holds t x) : s.refcount x ≠ 0 := by
  have hgone := h.refs.targets t x ((h.refs.live t).mp ht.1) ht.2
  have hpos : 0 < s.live.countP (fun j => (s.pc j).target = some x) :=
    List.countP_pos_iff.mpr ⟨t, ht.1, decide_eq_true ht.2⟩
  have hcount := h.refs.refs x hgone
  omega

/-- **No step of a join fails an assertion.** -/
theorem join_goes (h : SchedInv s place home) (hj : JoinInv s place) (hoff : s.tick c = .off)
    (hjoins : (s.pc (s.current c)).joins = true) (hfair : JoinFair s (.go c)) :
    ∃ s', schedStep s (.go c) = some s' := by
  have hlive := live_current h c
  have hat := hj.joins _ hlive
  have hheld : ∀ x, (s.pc (s.current c)).target = some x → s.refcount x ≠ 0 :=
    fun x hx => held_count h ⟨hlive, hx⟩
  simp only [schedStep, hoff, if_true]
  unfold goStep
  dsimp only
  cases hp : s.pc (s.current c) <;> rw [hp] at hjoins hat hheld
  case joinFind tid i phase =>
      obtain ⟨x, hx, rfl, _, ha⟩ := hfair.2 tid i phase hp
      obtain ⟨s', hs, _⟩ := look_ahead (t := s.current c) h hj.ids hx ha
      exact ⟨s', hs⟩
  case yieldEnter k =>
      dsimp only
      split
      · exact ⟨_, rfl⟩
      · exact ⟨_, rfl⟩
  case yieldBack k =>
      cases k with
      | joined x => exact ⟨_, release_some (s := s.setInterrupts c true) (hheld x rfl)⟩
      | caller | slept | killed => cases hjoins
  case joinCheck x =>
      have hdet : s.detached x = false := hat
      dsimp only
      rw [hdet, if_neg Bool.false_ne_true]
      split
      · exact ⟨_, release_some (hheld x rfl)⟩
      · exact ⟨_, rfl⟩
  case joinAdd x =>
      have hb : s.blocker (s.current c) = ⟨none, none⟩ := hat
      dsimp only
      unfold waitqueueAdd
      rw [if_pos hb]
      cases (s.joiners x).tail with
      | none => exact ⟨_, rfl⟩
      | some y => exact ⟨_, rfl⟩
  case joinRecheck x =>
      dsimp only
      split
      · exact ⟨_, rfl⟩
      · exact ⟨_, rfl⟩
  case joinLeave x => exact ⟨_, release_some (hheld x rfl)⟩
  case yieldEnqueue | yieldDequeue | yieldSwitch | joinDel | joinBlock => exact ⟨_, rfl⟩
  all_goals cases hjoins

/-- **A join returns with a zombie.** -/
theorem join_returns (h : SchedInv s place home) (hj : JoinInv s place) {e : SchedEvent n}
    (hfair : JoinFair s e) (hs : schedStep s e = some s') (ht : s.Holds t x) :
    (s'.pc t).target = some x ∨ s'.pc t = .away ∧ s'.state x = .zombie := by
  obtain ⟨hlive, htgt⟩ := ht
  have hx : x ∈ s.live := (h.refs.live x).mpr (h.refs.targets t x ((h.refs.live t).mp hlive) htgt)
  have hz : s.state x = .zombie → s'.state x = .zombie :=
    (step_zombies h hj.dying hfair.safe hs hx).1
  by_cases hne : e.moves s = some t
  · cases e with
    | call c op =>
        obtain rfl := Option.some.inj hne
        simp only [schedStep] at hs
        split at hs
        · rename_i hc
          rw [hc.2] at htgt
          cases htgt
        · cases hs
    | alloc c y =>
        obtain rfl := Option.some.inj hne
        simp only [schedStep] at hs
        split at hs
        · split at hs
          · rename_i hp
            rw [hp] at htgt
            cases htgt
          · cases hs
        · cases hs
    | go c =>
        obtain rfl := Option.some.inj hne
        simp only [schedStep] at hs
        split at hs
        · have hnext := goStep_next h hs
          have hat := hj.joins _ hlive
          have hok := h.tasks _ ((h.refs.live _).mp hlive)
          have hcur : s.current (home (s.current c)) = s.current c := by
            rw [(h.cpus c).currentHome]
          cases hp : s.pc (s.current c) <;> rw [hp] at htgt hnext hat
          case joinCheck y =>
              obtain rfl := Option.some.inj htgt
              rcases hnext with ⟨hq, he⟩ | ⟨hq, _⟩
              · exact Or.inr ⟨hq, hz he⟩
              · exact Or.inl (by rw [hq]; rfl)
          case joinAdd y =>
              obtain rfl := Option.some.inj htgt
              exact Or.inl (by rw [hnext.1]; rfl)
          case joinRecheck y =>
              obtain rfl := Option.some.inj htgt
              rcases hnext with ⟨hq, _⟩ | hq
              · exact Or.inl (by rw [hq]; rfl)
              · exact Or.inl (by rw [hq]; rfl)
          case joinDel y | joinBlock y =>
              obtain rfl := Option.some.inj htgt
              exact Or.inl (by rw [show s'.pc _ = _ from hnext]; rfl)
          case joinLeave y =>
              obtain rfl := Option.some.inj htgt
              exact Or.inr ⟨hnext, hz hat⟩
          case yieldEnter k =>
              rcases hnext with hq | hq
              · exact Or.inl (by rw [hq]; exact htgt)
              · exact Or.inl (by rw [hq]; exact htgt)
          case yieldEnqueue k | yieldSwitch k r =>
              exact Or.inl (by rw [show s'.pc _ = _ from hnext]; exact htgt)
          case yieldDequeue k =>
              obtain ⟨r, hq⟩ := hnext
              exact Or.inl (by rw [hq]; exact htgt)
          case yieldBack k =>
              -- it runs, so it is not on the list any more
              have hawake := hok.awake hcur (by rw [hp]; rfl)
              rcases hat x htgt with he | he
              · rw [he] at hawake
                rcases hawake with hawake | hawake <;> cases hawake
              · exact Or.inr ⟨hnext.1, hz he⟩
          all_goals cases htgt
        · cases hs
    | flag c b | tick c | tock c b => cases hne
  · exact Or.inl (by rw [step_pc hs hlive hne]; exact htgt)

/-- **A task without references** is a zombie in its cleanup queue. -/
theorem left_cleaned (h : SchedInv s place home) (hj : JoinInv s place) (hx : x ∈ s.live)
    (hcount : s.refcount x = 0) : s.state x = .zombie ∧ s.Cleaned (home x) x := by
  have hgone := (h.refs.live x).mp hx
  have hrel : (s.pc x).released = true := by
    have hrefs := h.refs.refs x hgone
    by_contra hne
    rw [if_neg hne] at hrefs
    omega
  have hdead : (s.pc x).dead = true := by
    cases hp : s.pc x <;> rw [hp] at hrel <;> first | exact hrel | cases hrel
  have hdying : (s.pc x).dying = true := by
    cases hp : s.pc x <;> rw [hp] at hdead <;> first | exact hdead | rfl
  refine ⟨(hj.dying x hx).mp hdying, (cleaned_iff h).mpr ⟨?_, rfl⟩⟩
  exact (stands_dead (h.tasks x hgone).stands).mpr hdead

/-- **A task that is freed** was a zombie nobody holds, and is no record any more. -/
theorem freed_gone (h : SchedInv s place home) (hj : JoinInv s place) {e : SchedEvent n}
    (hs : schedStep s e = some s') (hf : s.frees e = some x) :
    x ∈ s.live ∧ s.state x = .zombie ∧ (∀ t, ¬ s.Holds t x) ∧ x ∉ s'.live := by
  have hnone : ∀ t, ¬ s.Holds t x := fun t ht => (held_not_freed h ht).2 e hf
  cases e with
  | tock d b =>
      have hat := tickOk_iff.mp (h.cpus d).tick
      simp only [Kernel.frees] at hf
      split at hf
      · rename_i y hy
        split at hf
        · rename_i hzero
          obtain rfl := Option.some.inj hf
          rw [hy] at hat
          have hlive := live_of h (hat y rfl).1 fun he => by cases he
          refine ⟨hlive, (left_cleaned h hj hlive hzero).1, hnone, ?_⟩
          simp only [schedStep, tickStep, hy, hzero, if_true] at hs
          obtain rfl := Option.some.inj hs
          exact fun hm => (List.Nodup.mem_erase_iff h.refs.nodup).mp hm |>.1 rfl
        · cases hf
      · cases hf
  | _ => cases hf

/-- **A look at the place behind.** -/
theorem ahead_next {i j : Nat} {phase phase' : FindPhase}
    (hj : lookAt j phase' = lookAt i phase + 1)
    (ha : (s.setPc t (.joinFind (s.id x) j phase')).Ahead x (lookAt j phase')) :
    s.Ahead x (lookAt i phase) := by
  obtain ⟨hcount, d, hd⟩ := ha
  refine ⟨hcount, d, ?_⟩
  rw [hj] at hd
  rcases hd with ⟨hq, hk⟩ | ⟨hq, hk⟩ | ⟨hq, hk⟩ | ⟨⟨a, hq⟩, hk⟩
  · exact Or.inl ⟨hq, by omega⟩
  · exact Or.inr (Or.inl ⟨hq, by omega⟩)
  · exact Or.inr (Or.inr (Or.inl ⟨hq, by omega⟩))
  · refine Or.inr (Or.inr (Or.inr ⟨⟨a, ?_⟩, by omega⟩))
    have hne : s.current d ≠ t := by
      intro he
      have hpc : update s.pc t _ (s.current d) = _ := hq
      rw [he, update_self] at hpc
      cases hpc
    exact (update_of_ne hne _ _).symm.trans hq

/-- **A lookup for a task that is not ahead of it** fails, when its processor alone goes on. -/
theorem lookup_alone (h : SchedInv s place home) (hids : s.IdsApart) (hoff : s.tick c = .off)
    {i : Nat} {phase : FindPhase} (hx : x ∈ s.live)
    (hp : s.pc (s.current c) = .joinFind (s.id x) i phase) (hnot : ¬ s.Ahead x (lookAt i phase)) :
    ∃ k s' j phase', exec schedStep s (List.replicate k (.go c)) = some s' ∧
      s'.pc (s'.current c) = .joinFind (s.id x) j phase' ∧ schedStep s' (.go c) = none := by
  -- the induction is on the places that are left
  induction hm : 3 * n - lookAt i phase generalizing s i phase with
  | zero =>
      refine ⟨0, s, i, phase, rfl, hp, ?_⟩
      have hi : ¬ i < n := by
        cases phase <;> simp only [lookAt, FindPhase.index] at hm <;> omega
      simp only [schedStep, hoff, if_true, goStep, hp, schedulerGetTaskById, dif_neg hi]
  | succ m ih =>
      have hi : i < n := by
        cases phase <;> simp only [lookAt, FindPhase.index] at hm <;> omega
      obtain ⟨hhere, hon⟩ := look_cases (t := s.current c) h hids phase hi hx
      have hstep : schedStep s (.go c) =
          schedulerGetTaskById s (s.current c) (s.id x) i phase := by
        simp only [schedStep, hoff, if_true, goStep, hp]
      by_cases hnow : match phase with
          | .tasks => s.Queued ⟨i, hi⟩ x
          | .cleanup => s.Cleaned ⟨i, hi⟩ x
          | .current => s.current ⟨i, hi⟩ = x ∧ s.refcount x ≠ 0
      · refine ⟨0, s, i, phase, rfl, hp, ?_⟩
        rw [hstep, hhere hnow]
        have hzero : s.refcount x = 0 := by
          by_contra hne
          refine hnot ⟨hne, ⟨i, hi⟩, ?_⟩
          cases phase with
          | tasks => exact Or.inl ⟨hnow, Nat.le_refl _⟩
          | cleanup => exact Or.inr (Or.inl ⟨hnow, Nat.le_refl _⟩)
          | current => exact Or.inr (Or.inr (Or.inl ⟨hnow.1, Nat.le_refl _⟩))
        unfold taskAcquire
        rw [if_pos hzero]
        rfl
      · obtain ⟨j, phase', hj, hs⟩ := hon hnow
        obtain ⟨k, s', j', phase₂, hk, hpc, hend⟩ := ih
          (s := s.setPc (s.current c) (.joinFind (s.id x) j phase'))
          (inv_joinNext h hoff hp j phase') hids hoff hx (setPc_self _)
          (fun ha => hnot (ahead_next hj ha)) (by rw [hj]; omega)
        refine ⟨k + 1, s', j', phase₂, ?_, hpc, hend⟩
        rw [List.replicate_succ]
        show (schedStep s (.go c)).bind _ = _
        rw [hstep, hs]
        exact hk

theorem cleaning_queue (h : SchedInv s place home) (ht : s.tick d = .cleaning (some t)) :
    (place t).queue (home t) = some (.cleanup d) := by
  have hat := tickOk_iff.mp (h.cpus d).tick
  rw [ht] at hat
  rw [(hat t rfl).1, (hat t rfl).2]
  rfl

/-- A pass over the cleanup queue of `d` frees `x`, or goes on to it. -/
theorem due_tock (h : SchedInv s place home) {b : Bool} (hs : tickStep s d b = some s')
    (hfree : s.frees (.tock d b) ≠ some x) (hdue : s.Due d x) :
    ∀ e, s'.tick d = .cleaning e → Reaches s'.siblings x e := by
  obtain ⟨hcount, hclean, hreach⟩ := hdue
  intro e he
  unfold tickStep at hs
  cases ht : s.tick d with
  | off =>
      rw [ht] at hs
      cases hs
  | sleepers kept rest =>
      rw [ht] at hs
      cases rest with
      | nil =>
          obtain rfl := Option.some.inj hs
          obtain rfl := Tick.cleaning.inj ((update_self _ _ _).symm.trans he)
          exact hclean
      | cons t rest =>
          dsimp only at hs
          split at hs
          all_goals
            obtain rfl := Option.some.inj hs
            cases (update_self _ _ _).symm.trans he
  | waking kept t rest =>
      rw [ht] at hs
      obtain ⟨c, _, hs⟩ := Option.bind_eq_some_iff.mp hs
      obtain rfl := Option.some.inj hs
      cases (update_self _ _ _).symm.trans he
  | cleaning e₀ =>
      have hr := hreach e₀ ht
      cases e₀ with
      | none => cases hr
      | some t =>
          have hxt : x ≠ t := by
            rintro rfl
            refine hfree ?_
            simp only [Kernel.frees, ht, hcount, if_true]
          have hnext := reaches_next hr hxt
          have hmem := cleaning_queue h ht
          rw [ht] at hs
          dsimp only at hs
          split at hs
          · obtain rfl := Option.some.inj hs
            obtain rfl := Tick.cleaning.inj ((update_self _ _ _).symm.trans he)
            obtain ⟨l, hd, _, hl⟩ := h.queues (.cleanup d)
            obtain ⟨l₁, l₂, rfl⟩ := List.append_of_mem ((hl t).mpr hmem)
            exact reaches_bypass hd hnext
          · obtain rfl := Option.some.inj hs
            obtain rfl := Tick.cleaning.inj ((update_self _ _ _).symm.trans he)
            exact hnext

/-- **What is due stays due** until it is freed. -/
theorem due_step (h : SchedInv s place home) {e : SchedEvent n} (hsafe : JoinSafe s e)
    (hs : schedStep s e = some s') (h' : SchedInv s' place' home')
    (hstay : s.Stays place place' home home') (hfree : s.frees e ≠ some x) (hx : x ∈ s.live)
    (hdue : s.Due d x) : x ∈ s'.live ∧ s'.Due d x := by
  have hw := step_writes h hsafe hs
  obtain ⟨hcount, hclean, hreach⟩ := id hdue
  obtain ⟨hz, hhome⟩ := (cleaned_iff h).mp hclean
  have hgone := (h.refs.live x).mp hx
  obtain ⟨hlive, hdead⟩ := step_keeps hs hx
  have hx' := hlive hfree
  have hz' : place' x = .zombie :=
    (stands_dead (h'.tasks x ((h'.refs.live x).mp hx')).stands).mpr
      (hdead ((stands_dead (h.tasks x hgone).stands).mp hz))
  refine ⟨hx', hw.count x hx hcount,
    (cleaned_iff h').mpr ⟨hz', (hstay.home x hgone).trans hhome⟩, ?_⟩
  by_cases hmoves : e.moves s ≠ none ∨ d ≠ e.cpu
  · -- the queue and the pass over it are as before
    intro e' he'
    rw [hw.tick d hmoves] at he'
    by_cases hd : d = e.cpu
    · have hoff : s.tick d = .off := by
        cases e with
        | call c op | go c | alloc c y =>
            obtain rfl : d = c := hd
            simp only [schedStep] at hs
            split at hs
            · rename_i hc
              first | exact hc.1 | exact hc
            · cases hs
        | flag c b | tick c | tock c b =>
            rcases hmoves with hm | hm
            · exact absurd rfl hm
            · exact absurd hd hm
      cases hoff.symm.trans he'
    · have hq := h.queues (.cleanup d)
      have hmem : ∀ u, (place u).queue (home u) = some (.cleanup d) →
          place u = .zombie ∧ home u = d := by
        intro u hu
        rcases placeQueue_some hu with hp | hp <;> rw [hp] at hu
        · cases hu
        · exact ⟨hp, QueueId.cleanup.inj (Option.some.inj hu)⟩
      refine reaches_congr (P := fun u => (place u).queue (home u) = some (.cleanup d))
        (hreach e' he') (fun b hb => ?_) (fun b b' hb hb' => (threads_next hq hb hb').1)
        fun b hb => ?_
      · exact cleaning_queue h (hb ▸ he')
      · refine hw.siblings b (live_queue h hb) (hmem b hb).1 ?_
        rw [(hmem b hb).2]
        exact hd
  · obtain ⟨hnone, hd⟩ := not_or.mp hmoves |>.imp not_not.mp not_not.mp
    cases e with
    | call c op | go c | alloc c y => cases hnone
    | flag c b =>
        obtain rfl : d = c := hd
        simp only [schedStep] at hs
        split at hs
        · obtain rfl := Option.some.inj hs
          exact hreach
        · cases hs
    | tick c =>
        obtain rfl : d = c := hd
        simp only [schedStep] at hs
        split at hs
        · obtain rfl := Option.some.inj hs
          intro e' he'
          cases (update_self _ _ _).symm.trans he'
        · cases hs
    | tock c b =>
        obtain rfl : d = c := hd
        exact due_tock h hs hfree hdue

end Joins

/-! ## 6. Runs -/

/-- **The joins of a state.** -/
structure JoinSound (s : Kernel n) : Prop where
  ids : s.IdsApart
  /-- no step of a join fails an assertion -/
  goes : ∀ c, s.tick c = .off → (s.pc (s.current c)).joins = true → JoinFair s (.go c) →
    ∃ s', schedStep s (.go c) = some s'
  /-- a look finds the task, or goes on to the next of the places that are left -/
  finds : ∀ c tid i phase s', s.pc (s.current c) = .joinFind tid i phase → JoinFair s (.go c) →
    schedStep s (.go c) = some s' → ∃ x ∈ s.live, s.id x = tid ∧ s.detached x = false ∧
      (s'.pc (s.current c) = .joinCheck x ∨ ∃ j phase', lookAt j phase' = lookAt i phase + 1 ∧
        lookAt j phase' < 3 * n ∧ s'.pc (s.current c) = .joinFind tid j phase')
  /-- a join stays with its task, and returns when that is a zombie -/
  returns : ∀ e s' t x, JoinFair s e → schedStep s e = some s' → s.Holds t x →
    (s'.pc t).target = some x ∨ s'.pc t = .away ∧ s'.state x = .zombie
  held : ∀ t x, s.Holds t x → x ∈ s.live ∧ ∀ e, s.frees e ≠ some x
  /-- without a reference a task is a zombie in a cleanup queue -/
  left : ∀ x ∈ s.live, s.refcount x = 0 → s.state x = .zombie ∧
    ∃ d, s.Cleaned d x ∧ ((∀ e, s.tick d ≠ .cleaning e) → s.Due d x)
  /-- a task that is freed is no record any more, so it is not freed again -/
  freed : ∀ e s' x, schedStep s e = some s' → s.frees e = some x →
    x ∈ s.live ∧ s.state x = .zombie ∧ (∀ t, ¬ s.Holds t x) ∧ x ∉ s'.live
  /-- a look for a task that is not ahead leads to an assertion that fails -/
  fails : ∀ c x i phase, s.tick c = .off → x ∈ s.live →
    s.pc (s.current c) = .joinFind (s.id x) i phase → ¬ s.Ahead x (lookAt i phase) →
    ∃ k s' j phase', exec schedStep s (List.replicate k (.go c)) = some s' ∧
      s'.pc (s'.current c) = .joinFind (s.id x) j phase' ∧ schedStep s' (.go c) = none

section Runs

variable {s s₀ : Kernel n} {place : TaskPtr → Place} {home : TaskPtr → Fin n}

theorem joinSound_of (h : SchedInv s place home) (hj : JoinInv s place) : JoinSound s where
  ids := hj.ids
  goes := fun _ => join_goes h hj
  finds := by
    intro c tid i phase s' hp hfair hs
    obtain ⟨x, hx, rfl, hdet, ha⟩ := hfair.2 tid i phase hp
    obtain ⟨s₁, hs₁, hfound⟩ := look_ahead (t := s.current c) h hj.ids hx ha
    simp only [schedStep] at hs
    split at hs
    · simp only [goStep, hp] at hs
      obtain rfl := Option.some.inj (hs₁.symm.trans hs)
      exact ⟨x, hx, rfl, hdet, hfound⟩
    · cases hs
  returns := fun _ _ _ _ => join_returns h hj
  held := fun _ _ => held_not_freed h
  left := fun x hx hcount => by
    obtain ⟨hz, hc⟩ := left_cleaned h hj hx hcount
    exact ⟨hz, _, hc, fun hoff => ⟨hcount, hc, fun e he => absurd he (hoff e)⟩⟩
  freed := fun _ _ _ => freed_gone h hj
  fails := fun _ _ _ _ hoff => lookup_alone h hj.ids hoff

/-- What the joiners know in every state of a run. -/
theorem run_joinInv (h₀ : SchedLoaded s₀) (hids : s₀.IdsApart) (hrun : SchedRun JoinFair s₀ s)
    (c : Fin n) : ∃ place home, SchedInv s place home ∧ JoinInv s place := by
  induction hrun with
  | start =>
      obtain ⟨place, home, h⟩ := run_inv h₀ .start c
      have hpc : ∀ t ∈ s₀.live, s₀.pc t = .away ∧ s₀.state t = .ready := by
        intro t ht
        obtain ⟨d, rfl⟩ := (loaded_live h₀ t).mp ht
        exact ⟨h₀.pc d, h₀.state d⟩
      refine ⟨place, home, h, hids, fun t ht => ?_, fun t ht => ?_⟩
      · rw [(hpc t ht).1, (hpc t ht).2]
        exact iff_of_false nofun nofun
      · rw [(hpc t ht).1]
        exact joinAt_none rfl
  | step _ hfair hs ih =>
      obtain ⟨place, home, h, hj⟩ := ih
      obtain ⟨place', home', h', _, hstay⟩ := inv_step h hfair.safe hs
      exact ⟨place', home', h', joinInv_step h hj hfair hs h' hstay⟩

/-- **A task that is due is not passed over**: until it is freed no pass over its queue ends. -/
theorem run_due (h : SchedInv s place home) {s' : Kernel n} {d : Fin n} {x : TaskPtr}
    (hrun : SchedRun (fun t e => JoinFair t e ∧ t.frees e ≠ some x) s s') (hx : x ∈ s.live)
    (hdue : s.Due d x) : x ∈ s'.live ∧ s'.Due d x := by
  suffices hall : (∃ place home, SchedInv s' place home) ∧ x ∈ s'.live ∧ s'.Due d x from hall.2
  induction hrun with
  | start => exact ⟨⟨place, home, h⟩, hx, hdue⟩
  | step _ hp hs ih =>
      obtain ⟨⟨place, home, h⟩, hx, hdue⟩ := ih
      obtain ⟨place', home', h', _, hstay⟩ := inv_step h hp.1.safe hs
      exact ⟨⟨place', home', h'⟩, due_step h hp.1.safe hs h' hstay hp.2 hx hdue⟩

/-- **A join finds its task, never fails an assertion and returns with a zombie**, in every run
    whose looks are for tasks that are ahead. The task is freed when it has no reference left, by
    the first pass over its cleanup queue that begins then, and not again. -/
theorem join_sound (h₀ : SchedLoaded s₀) (hids : s₀.IdsApart) (hrun : SchedRun JoinFair s₀ s) :
    JoinSound s ∧ ∀ d x s', x ∈ s.live → s.Due d x →
      SchedRun (fun t e => JoinFair t e ∧ t.frees e ≠ some x) s s' →
      x ∈ s'.live ∧ s'.Due d x ∧ s'.tick d ≠ .cleaning none := by
  cases n with
  | zero =>
      have hnil : s = s₀ := by
        cases hrun with
        | start => rfl
        | @step _ _ e => exact e.cpu.elim0
      have hlive : ∀ t, t ∉ s.live := by
        intro t ht
        obtain ⟨d, _⟩ := (loaded_live h₀ t).mp (hnil ▸ ht)
        exact d.elim0
      exact ⟨⟨fun a ha => absurd ha (hlive a), fun c => c.elim0, fun c => c.elim0,
        fun e => e.cpu.elim0, fun t x hx => absurd hx.1 (hlive t), fun x hx => absurd hx (hlive x),
        fun e => e.cpu.elim0, fun c => c.elim0⟩, fun d => d.elim0⟩
  | succ m =>
      obtain ⟨place, home, h, hj⟩ := run_joinInv h₀ hids hrun 0
      refine ⟨joinSound_of h hj, fun d x s' hx hdue hrun' => ?_⟩
      obtain ⟨hx', hdue'⟩ := run_due h hrun' hx hdue
      exact ⟨hx', hdue', fun he => nomatch hdue'.2.2 none he⟩

end Runs

/-! ## 7. Two runs -/

/-- `JoinFair`, computed, where the task is looked for among the current ones only. -/
def joinFair (s : Kernel n) : SchedEvent n → Bool
  | .go c => joinSafe s (.go c) &&
      match s.pc (s.current c) with
      | .joinFind tid i phase => (List.finRange n).any fun d =>
          let x := s.current d
          x ∈ s.live && s.id x = tid && !s.detached x && s.refcount x ≠ 0 &&
            lookAt i phase ≤ lookAt d .current
      | _ => true
  | .alloc c _ =>
      match s.pc (s.current c) with
      | .spawnInit tid _ => s.live.all fun y => s.id y ≠ tid
      | _ => true
  | _ => true

theorem joinFair_of {s : Kernel n} {e : SchedEvent n} (h : joinFair s e = true) : JoinFair s e := by
  cases e with
  | go c =>
      obtain ⟨hsafe, hlook⟩ := Bool.and_eq_true_iff.mp h
      refine ⟨joinSafe_of hsafe, fun tid i phase hp => ?_⟩
      rw [hp] at hlook
      obtain ⟨d, _, hd⟩ := List.any_eq_true.mp hlook
      simp only [Bool.and_eq_true, decide_eq_true_eq, Bool.not_eq_true'] at hd
      obtain ⟨⟨⟨⟨hlive, hid⟩, hdet⟩, hcount⟩, hk⟩ := hd
      exact ⟨_, hlive, hid, hdet, hcount, d, Or.inr (Or.inr (Or.inl ⟨rfl, hk⟩))⟩
  | alloc c x =>
      intro tid detached hp y hy
      simp only [joinFair, hp] at h
      simpa using List.all_eq_true.mp h y hy
  | _ => exact True.intro

theorem booted_ids (n : Nat) (hn : n < 2 ^ 31) : (booted n).IdsApart := by
  intro a ha b hb he
  obtain ⟨c, _, rfl⟩ := List.mem_map.mp ha
  obtain ⟨d, _, rfl⟩ := List.mem_map.mp hb
  have hc := c.isLt
  have hd := d.isLt
  have hnat := congrArg BitVec.toNat he
  simp only [booted, BitVec.toNat_ofNat] at hnat
  rw [Nat.mod_eq_of_lt (by omega), Nat.mod_eq_of_lt (by omega)] at hnat
  exact Nat.succ.inj hnat

/-- A task on each of two processors; the first joins the second, which exits, and the first one
    returns. -/
def returnEvents : List (SchedEvent 2) :=
  joinEvents ++ List.replicate 5 (.go 0) ++ .call 1 .kill :: List.replicate 9 (.go 1) ++
    [.go 0, .call 0 .yield, .go 0, .go 0, .go 0, .go 0]

theorem join_sound_returned : ∃ s : Kernel 2, s.pc 2 = .away ∧ s.current 0 = 2 ∧ JoinSound s ∧
    s.state 3 = .zombie ∧ s.refcount 3 = 0 := by
  have hend : (schedEvents joinFair (booted 2) returnEvents).map
      (fun s => (s.pc 2, s.current 0, s.state 3, s.refcount 3)) =
        some (.away, 2, .zombie, 0) := by rfl
  obtain ⟨s, hs, he⟩ := Option.map_eq_some_iff.mp hend
  simp only [Prod.mk.injEq] at he
  have hrun := schedRun_mono (fun _ _ => joinFair_of) (schedEvents_run .start hs)
  have hsound := (join_sound (booted_loaded 2) (booted_ids 2 (by decide)) hrun).1
  exact ⟨s, he.1, he.2.1, hsound, he.2.2⟩

/-- One processor: a task sleeps, and the next one joins it. -/
def asleepEvents : List (SchedEvent 1) :=
  spawnEvents 0 false 1 ++ spawnEvents 0 true 2 ++ .call 0 .yield :: List.replicate 3 (.go 0) ++
    .call 0 .sleep :: List.replicate 5 (.go 0) ++ .call 0 (.join 2) :: List.replicate 3 (.go 0)

/-- **The lookup does not find a task that sleeps.** -/
theorem join_asleep : ¬ ∀ (n : Nat) (s₀ s : Kernel n), SchedLoaded s₀ → s₀.IdsApart →
    SchedRun JoinSafe s₀ s → ∀ c x i phase, s.tick c = .off → x ∈ s.live → s.detached x = false →
      x ≠ s.current c → s.pc (s.current c) = .joinFind (s.id x) i phase →
      ∃ s', schedStep s (.go c) = some s' := by
  intro hall
  have hend : (schedEvents joinSafe (booted 1) asleepEvents).map
      (fun s => (s.tick 0, s.live, s.detached 1, s.current 0, s.pc 2, s.id 1,
        (schedStep s (.go 0)).isNone)) =
      some (.off, [2, 1, 0], false, 2, .joinFind 2 1 .tasks, 2, true) := by rfl
  obtain ⟨s, hs, he⟩ := Option.map_eq_some_iff.mp hend
  simp only [Prod.mk.injEq] at he
  obtain ⟨hoff, hlive, hdet, hcur, hpc, hid, hnone⟩ := he
  have hrun := schedRun_mono (fun _ _ => joinSafe_of) (schedEvents_run .start hs)
  obtain ⟨s', hs'⟩ := hall 1 (booted 1) s (booted_loaded 1) (booted_ids 1 (by decide)) hrun 0 1 1
    .tasks hoff (by simp [hlive]) hdet (by simp [hcur]) (by rw [hcur, hid, hpc])
  rw [hs'] at hnone
  cases hnone

end Slightx
