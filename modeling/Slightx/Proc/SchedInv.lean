/-
  File:      Slightx/Proc/SchedInv.lean
  Subject:   Where every task is, and what keeps it there.

  One pair of sibling links serves all run queues and cleanup queues, so a task must never be in
  two of them. The invariant gives every task one place (`Place`): it runs, it is linked in a
  queue, it is registered with a task it waits for or with a timer, or it is in the hands of a
  task that will enqueue it. Who moves a task to another place is its holder:

  * `Stands` -- the places a task can have at each point of its code;
  * `SchedInv` -- the places, the links and the counters of a state agree;
  * `schedInv_go` -- what a step of one task has to show, and what stays by itself;
  * `refs_same`, `refs_take`, `refs_give` -- the counters of a step
-/
import Slightx.Proc.Scheduler

namespace Slightx

open Lib Function

variable {n : Nat}

/-! ## 1. Places -/

inductive Place where
  /-- not a task record -/
  | gone
  /-- an idle task -/
  | idle
  /-- it runs, and nobody else knows it -/
  | self
  /-- in the hands of `p`: spawned, dequeued, or taken off a list of joiners -/
  | held (p : TaskPtr)
  | ready
  | zombie
  | joiners (b : TaskPtr)
  | sleeping
  deriving DecidableEq

inductive QueueId (n : Nat) where
  | tasks (c : Fin n)
  | cleanup (c : Fin n)
  deriving DecidableEq

def Kernel.queue (s : Kernel n) : QueueId n → Runqueue
  | .tasks c => s.tasks c
  | .cleanup c => s.cleanup c

/-- The queue a task is linked in. -/
def Place.queue (home : Fin n) : Place → Option (QueueId n)
  | .ready => some (.tasks home)
  | .zombie => some (.cleanup home)
  | _ => none

/-- The task has run, and `last_processor_id` says where. -/
def Place.ran : Place → Bool
  | .self => true
  | .joiners _ => true
  | .sleeping => true
  | _ => false

/-- A task that does not run can only be at these points. -/
def Pc.parked : Pc → Bool
  | .away => true
  | .yieldBack _ => true
  | _ => false

/-- Interrupts are off at these points. -/
def Pc.masked : Pc → Bool
  | .yieldEnter _ => true
  | .yieldEnqueue _ => true
  | .yieldDequeue _ => true
  | .yieldSwitch _ _ => true
  | .sleepAdd => true
  | .sleepBlock => true
  | .killEnqueue => true
  | .killRelease => true
  | _ => false

/-- No task is in the hands of a task at these points. -/
def Pc.quiet : Pc → Bool
  | .spawnEnqueue _ => false
  | .yieldSwitch _ _ => false
  | .killWake _ => false
  | .killQueue _ _ => false
  | _ => true

def After.target : After → Option TaskPtr
  | .joined x => some x
  | _ => none

/-- The task a joiner holds a reference to. -/
def Pc.target : Pc → Option TaskPtr
  | .yieldEnter k => k.target
  | .yieldEnqueue k => k.target
  | .yieldDequeue k => k.target
  | .yieldSwitch k _ => k.target
  | .yieldBack k => k.target
  | .joinCheck x => some x
  | .joinAdd x => some x
  | .joinRecheck x => some x
  | .joinDel x => some x
  | .joinLeave x => some x
  | .joinBlock x => some x
  | _ => none

/-- A killed task has given up its own reference. -/
def Pc.released : Pc → Bool
  | .yieldEnter .killed => true
  | .yieldEnqueue .killed => true
  | .yieldDequeue .killed => true
  | .yieldSwitch .killed _ => true
  | .yieldBack .killed => true
  | _ => false

/-- Where a task can be that has given itself away. -/
def After.Handed : After → Place → Prop
  | .caller, pl => pl = .idle ∨ pl = .ready ∨ ∃ p, pl = .held p
  | .slept, pl => pl = .sleeping ∨ pl = .ready ∨ ∃ p, pl = .held p
  | .joined b, pl => pl = .joiners b ∨ pl = .ready ∨ ∃ p, pl = .held p
  | .killed, pl => pl = .zombie

def Active (pl : Place) (st : TaskStateType) : Prop :=
  pl = .idle ∨ pl = .self ∧ st = .running

/-- **The places and states of a task at each point.** -/
def Stands : Pc → Place → TaskStateType → Prop
  | .away, pl, st => Active pl st ∨ pl = .ready ∨ ∃ p, pl = .held p
  | .spawnTid _, pl, st => Active pl st
  | .spawnInit _ _, pl, st => Active pl st
  | .spawnEnqueue _, pl, st => Active pl st
  | .yieldEnter k, pl, st =>
      k = .caller ∧ Active pl st ∨ k ≠ .caller ∧ k.Handed pl ∧ st ≠ .running
  | .yieldEnqueue k, pl, _ => k = .caller ∧ pl = .self
  | .yieldDequeue k, pl, _ => k.Handed pl
  | .yieldSwitch k _, pl, _ => k.Handed pl
  | .yieldBack k, pl, st => k.Handed pl ∨ k ≠ .killed ∧ pl = .self ∧ st = .running
  | .sleepAdd, pl, st => pl = .self ∧ st = .running
  | .sleepBlock, pl, _ => After.slept.Handed pl
  | .joinFind _ _ _, pl, st => pl = .self ∧ st = .running
  | .joinCheck _, pl, st => pl = .self ∧ st = .running
  | .joinAdd _, pl, st => pl = .self ∧ st = .running
  | .joinRecheck b, pl, st => (After.joined b).Handed pl ∧ (pl = .joiners b → st = .running)
  | .joinDel b, pl, st => (After.joined b).Handed pl ∧ (pl = .joiners b → st = .running)
  | .joinLeave _, pl, st => pl = .self ∧ st = .running
  | .joinBlock b, pl, _ => (After.joined b).Handed pl
  | .killTake, pl, st => pl = .self ∧ st = .zombie
  | .killWake _, pl, st => pl = .self ∧ st = .zombie
  | .killQueue _ _, pl, st => pl = .self ∧ st = .zombie
  | .killEnqueue, pl, st => pl = .self ∧ st = .zombie
  | .killRelease, pl, st => pl = .zombie ∧ st = .zombie

/-! ## 2. The invariant -/

/-- What a task's own record says, where `cur` is that it is the current task of its processor. -/
structure TaskOk (cur : Prop) (p : Pc) (pl : Place) (st : TaskStateType) (pin : Option Nat)
    (last home : Nat) : Prop where
  stands : Stands p pl st
  self : pl = .self → cur
  parked : ¬ cur → p.parked = true
  awake : cur → p.parked = true → pl = .self ∨ pl = .idle
  pinned : pl ≠ .idle → pin = none
  last : pl.ran = true → last = home
  idle : pl = .idle → st = .ready

def Kernel.TaskOk (s : Kernel n) (place : TaskPtr → Place) (home : TaskPtr → Fin n) (t : TaskPtr) :
    Prop :=
  Slightx.TaskOk (s.current (home t) = t) (s.pc t) (place t) (s.state t) (s.pin t)
    (s.lastProcessorId t) (home t)

/-- The tasks in the hands of `p`. -/
def Kernel.InHands (s : Kernel n) (home : TaskPtr → Fin n) (p : TaskPtr) (l : List TaskPtr) : Prop :=
  match s.pc p with
  | .spawnEnqueue x => l = [x] ∧ home x = home p
  | .yieldSwitch _ r => l = r.toList ∧ ∀ x ∈ l, home x = home p
  | .killWake e => Lib.Follows s.blocker e l ∧ ∀ t ∈ l, s.lastProcessorId t = home t
  | .killQueue e next =>
      ∃ k, l = e :: k ∧ Lib.Follows s.blocker next k ∧ ∀ t ∈ l, s.lastProcessorId t = home t
  | _ => l = []

/-- The timer interrupt on `c` is where the sleepers and the cleanup queue say. -/
def Kernel.TickOk (s : Kernel n) (place : TaskPtr → Place) (home : TaskPtr → Fin n) (c : Fin n) : Prop :=
  match s.tick c with
  | .off => True
  | .sleepers kept rest => s.sleepers c = kept ++ rest
  | .waking kept t rest => s.sleepers c = kept ++ t :: rest
  | .cleaning e => ∀ t, e = some t → place t = .zombie ∧ home t = c

structure Kernel.CpuOk (s : Kernel n) (place : TaskPtr → Place) (home : TaskPtr → Fin n) (c : Fin n) :
    Prop where
  current : place (s.current c) ≠ .gone
  currentHome : home (s.current c) = c
  idle : place (s.idle c) = .idle
  idleHome : home (s.idle c) = c
  masked : (s.pc (s.current c)).masked = true → s.interrupts c = false
  ticked : s.tick c ≠ .off → s.interrupts c = true
  tick : s.TickOk place home c
  sleepers : (s.sleepers c).Nodup
  sleeping : ∀ t, t ∈ s.sleepers c ↔ place t = .sleeping ∧ home t = c

/-- Counters count: a task's own reference, and one for each joiner. -/
structure Kernel.RefsOk (s : Kernel n) (place : TaskPtr → Place) : Prop where
  live : ∀ t, t ∈ s.live ↔ place t ≠ .gone
  nodup : s.live.Nodup
  refs : ∀ t, place t ≠ .gone →
    s.refcount t = (if (s.pc t).released then 0 else 1) +
      s.live.countP (fun j => (s.pc j).target = some t)
  targets : ∀ j b, place j ≠ .gone → (s.pc j).target = some b → place b ≠ .gone

/-- **The places of a state.** -/
structure SchedInv (s : Kernel n) (place : TaskPtr → Place) (home : TaskPtr → Fin n) : Prop where
  queues : ∀ q, Threads s.siblings (s.queue q).head (s.queue q).tail
    (fun t => (place t).queue (home t) = some q) (s.queue q).count
  waits : ∀ b, place b ≠ .gone → ∃ k, Threads s.blocker (s.joiners b).head (s.joiners b).tail
    (fun t => place t = .joiners b) k
  hands : ∀ p, place p ≠ .gone → ∃ l : List TaskPtr, l.Nodup ∧ (∀ t, t ∈ l ↔ place t = .held p) ∧
    s.InHands home p l
  held : ∀ t p, place t = .held p → place p ≠ .gone
  tasks : ∀ t, place t ≠ .gone → s.TaskOk place home t
  cpus : ∀ c, s.CpuOk place home c
  idles : ∀ t, place t = .idle → s.idle (home t) = t
  refs : s.RefsOk place

/-- `task_join` leaves by its second check only while it is still linked in the list of joiners. -/
def JoinSafe (s : Kernel n) : SchedEvent n → Prop
  | .go c => ∀ x, s.pc (s.current c) = .joinDel x →
      Reaches s.blocker (s.current c) (s.joiners x).head
  | _ => True

/-! ## 3. Tasks moved by others -/

section Moved

variable {cur : Prop} {p : Pc} {pl : Place} {st : TaskStateType} {pin : Option Nat} {last home : Nat}
  {q b : TaskPtr}

/-- A place a task can be moved away from while it is at `p`. -/
theorem stands_moved (h : Stands p pl st) (hpl : (∃ q, pl = .held q) ∨ pl = .sleeping ∨ pl = .ready)
    (pl' : Place) (hpl' : pl' = .ready ∨ ∃ q, pl' = .held q) : Stands p pl' st := by
  have hne : pl ≠ .self ∧ pl ≠ .idle ∧ pl ≠ .zombie := by
    rcases hpl with ⟨q, rfl⟩ | rfl | rfl <;> simp
  have hhand : ∀ k : After, k.Handed pl → k.Handed pl' := by
    intro k hk
    cases k with
    | killed => exact absurd hk hne.2.2
    | caller => exact Or.inr hpl'
    | slept => exact Or.inr hpl'
    | joined x => exact Or.inr hpl'
  have hjoin : ∀ x, pl' ≠ .joiners x := by
    intro x
    rcases hpl' with rfl | ⟨q, rfl⟩ <;> simp
  cases p <;> simp only [Stands, Active, hne.1, hne.2.1, hne.2.2, false_and, and_false, false_or,
    or_false] at h ⊢
  case away => exact Or.inr hpl'
  case yieldEnter => exact Or.inr ⟨h.1, hhand _ h.2.1, h.2.2⟩
  case yieldDequeue => exact hhand _ h
  case yieldSwitch => exact hhand _ h
  case yieldBack => exact Or.inl (hhand _ h)
  case sleepBlock => exact hhand .slept h
  case joinRecheck x => exact ⟨hhand (.joined x) h.1, fun he => absurd he (hjoin x)⟩
  case joinDel x => exact ⟨hhand (.joined x) h.1, fun he => absurd he (hjoin x)⟩
  case joinBlock x => exact hhand (.joined x) h

/-- A registered joiner can be taken off the list. -/
theorem stands_taken (h : Stands p (.joiners b) st) (q : TaskPtr) : Stands p (.held q) st := by
  have hhand : ∀ k : After, k.Handed (.joiners b) → k.Handed (.held q) := by
    intro k hk
    cases k with
    | killed => cases hk
    | caller => exact Or.inr (Or.inr ⟨q, rfl⟩)
    | slept => exact Or.inr (Or.inr ⟨q, rfl⟩)
    | joined x => exact Or.inr (Or.inr ⟨q, rfl⟩)
  cases p <;> simp only [Stands, Active, reduceCtorEq, false_and, and_false, false_or, or_false,
    exists_false, false_implies, and_true] at h ⊢
  case yieldEnter => exact ⟨h.1, hhand _ h.2.1, h.2.2⟩
  case yieldDequeue => exact hhand _ h
  case yieldSwitch => exact hhand _ h
  case yieldBack => exact hhand _ h
  case sleepBlock => exact hhand .slept h
  case joinRecheck x => exact hhand (.joined x) h.1
  case joinDel x => exact hhand (.joined x) h.1
  case joinBlock x => exact hhand (.joined x) h

/-- The one a task is registered with is the one it has a reference to. -/
theorem stands_target (h : Stands p (.joiners b) st) : p.target = some b := by
  have hhand : ∀ k : After, k.Handed (.joiners b) → k.target = some b := by
    intro k hk
    cases k with
    | joined x =>
        rcases hk with hk | hk | ⟨q, hk⟩
        · rw [Place.joiners.inj hk]
          rfl
        · cases hk
        · cases hk
    | killed => cases hk
    | caller => rcases hk with hk | hk | ⟨q, hk⟩ <;> cases hk
    | slept => rcases hk with hk | hk | ⟨q, hk⟩ <;> cases hk
  cases p <;> simp only [Stands, Active, reduceCtorEq, false_and, and_false, false_or, or_false,
    exists_false] at h ⊢
  case yieldEnter => exact hhand _ h.2.1
  case yieldDequeue => exact hhand _ h
  case yieldSwitch => exact hhand _ h
  case yieldBack => exact hhand _ h
  case sleepBlock => exact nomatch hhand .slept h
  case joinRecheck x => exact hhand (.joined x) h.1
  case joinDel x => exact hhand (.joined x) h.1
  case joinBlock x => exact hhand (.joined x) h

/-- Whoever holds a task, or its timer, may make it ready. -/
theorem stands_woken (h : Stands p pl st) (hpl : (∃ q, pl = .held q) ∨ pl = .sleeping) :
    Stands p pl .ready := by
  have hne : pl ≠ .self ∧ pl ≠ .idle ∧ pl ≠ .zombie ∧ ∀ x, pl ≠ .joiners x := by
    rcases hpl with ⟨q, rfl⟩ | rfl <;> simp
  cases p <;> simp only [Stands, Active, hne.1, hne.2.1, hne.2.2.1, hne.2.2.2, false_and, and_false,
    false_or, or_false, false_implies, and_true] at h ⊢
  case away => exact h
  case yieldEnter => exact ⟨h.1, h.2.1, by simp⟩
  all_goals exact h

/-- A parked task in somebody's hands can run. -/
theorem stands_resumed (h : Stands p (.held q) st) (hp : p.parked = true) :
    Stands p .self .running := by
  cases p <;> simp only [Pc.parked, Bool.false_eq_true] at hp
  case away => exact Or.inl (Or.inr ⟨rfl, rfl⟩)
  case yieldBack k =>
      refine Or.inr ⟨?_, rfl, rfl⟩
      rintro rfl
      rcases h with h | h
      · cases h
      · cases h.2.1

theorem taskOk_moved (h : TaskOk cur p pl st pin last home)
    (hpl : (∃ q, pl = .held q) ∨ pl = .sleeping ∨ pl = .ready) {pl' : Place}
    (hpl' : pl' = .ready ∨ ∃ q, pl' = .held q) : TaskOk cur p pl' st pin last home := by
  have hne : pl ≠ .self ∧ pl ≠ .idle := by
    rcases hpl with ⟨q, rfl⟩ | rfl | rfl <;> simp
  have hne' : pl' ≠ .self ∧ pl' ≠ .idle ∧ pl'.ran = false := by
    rcases hpl' with rfl | ⟨q, rfl⟩ <;> simp [Place.ran]
  exact
    { stands := stands_moved h.stands hpl pl' hpl'
      self := fun he => absurd he hne'.1
      parked := h.parked
      awake := fun hc hp => absurd (h.awake hc hp) (by simp [hne.1, hne.2])
      pinned := fun _ => h.pinned hne.2
      last := fun he => absurd he (by simp [hne'.2.2])
      idle := fun he => absurd he hne'.2.1 }

theorem taskOk_taken (h : TaskOk cur p (.joiners b) st pin last home) (q : TaskPtr) :
    TaskOk cur p (.held q) st pin last home :=
  { stands := stands_taken h.stands q
    self := fun he => nomatch he
    parked := h.parked
    awake := fun hc hp => absurd (h.awake hc hp) (by simp)
    pinned := fun _ => h.pinned (by simp)
    last := fun he => nomatch he
    idle := fun he => nomatch he }

theorem taskOk_woken (h : TaskOk cur p pl st pin last home)
    (hpl : (∃ q, pl = .held q) ∨ pl = .sleeping) : TaskOk cur p pl .ready pin last home :=
  { h with
    stands := stands_woken h.stands hpl
    idle := fun _ => rfl }

end Moved

/-! ## 4. Steps of one task -/

/-- What a step of the current task of `c` leaves alone. -/
structure Kernel.Frame (s s' : Kernel n) (c : Fin n) : Prop where
  current : s'.current = s.current
  idle : s'.idle = s.idle
  live : s'.live = s.live
  pin : s'.pin = s.pin
  last : s'.lastProcessorId = s.lastProcessorId
  tick : s'.tick = s.tick
  sleepers : ∀ d, d ≠ c → s'.sleepers d = s.sleepers d
  pc : ∀ u, u ≠ s.current c → s'.pc u = s.pc u
  interrupts : ∀ d, d ≠ c → s'.interrupts d = s.interrupts d

/-- The counters are right after a step of `t`. -/
def Kernel.Refs (s s' : Kernel n) (place : TaskPtr → Place) (t : TaskPtr) : Prop :=
  (∀ u, place u ≠ .gone → s'.refcount u = (if (s'.pc u).released then 0 else 1) +
      s.live.countP (fun j => (s'.pc j).target = some u)) ∧
    ∀ b, (s'.pc t).target = some b → place b ≠ .gone

section Step

variable {s s' : Kernel n} {place place' : TaskPtr → Place} {home : TaskPtr → Fin n} {c : Fin n}

theorem current_inj (h : SchedInv s place home) {d : Fin n} (he : s.current d = s.current c) :
    d = c := by
  rw [← (h.cpus d).currentHome, he, (h.cpus c).currentHome]

/-- **A step of the current task of `c`**: what it changes has to fit, the rest stays. -/
theorem schedInv_go (h : SchedInv s place home) (hf : s.Frame s' c) (hoff : s.tick c = .off)
    (hgone : ∀ u, place' u = .gone ↔ place u = .gone) (hidle : ∀ u, place' u = .idle ↔ place u = .idle)
    (hzombie : ∀ u, place u = .zombie → place' u = .zombie)
    (htask : ∀ u, place u ≠ .gone → u = s.current c ∨ place' u ≠ place u ∨ s'.state u ≠ s.state u →
      s'.TaskOk place' home u)
    (hqueues : ∀ q, Threads s'.siblings (s'.queue q).head (s'.queue q).tail
      (fun t => (place' t).queue (home t) = some q) (s'.queue q).count)
    (hwaits : ∀ b, place b ≠ .gone → ∃ k, Threads s'.blocker (s'.joiners b).head (s'.joiners b).tail
      (fun t => place' t = .joiners b) k)
    (hhands : ∃ l : List TaskPtr, l.Nodup ∧ (∀ t, t ∈ l ↔ place' t = .held (s.current c)) ∧
      s'.InHands home (s.current c) l)
    (hother : ∀ p, p ≠ s.current c → ∀ u, place' u = .held p ↔ place u = .held p)
    (hblocker : ∀ p, p ≠ s.current c → ∀ u, place u = .held p → s'.blocker u = s.blocker u)
    (hmasked : (s'.pc (s.current c)).masked = true → s'.interrupts c = false)
    (hsleepers : (s'.sleepers c).Nodup)
    (hsleeping : ∀ d u, u ∈ s'.sleepers d ↔ place' u = .sleeping ∧ home u = d)
    (hrefs : s.Refs s' place (s.current c)) : SchedInv s' place' home where
  queues := hqueues
  waits := fun b hb => hwaits b fun he => hb ((hgone b).mpr he)
  hands := by
    intro p hp
    have hp : place p ≠ .gone := fun he => hp ((hgone p).mpr he)
    by_cases hpt : p = s.current c
    · subst hpt
      exact hhands
    · obtain ⟨l, hnd, hl, hin⟩ := h.hands p hp
      refine ⟨l, hnd, fun t => (hl t).trans (hother p hpt t).symm, ?_⟩
      have hb : ∀ t ∈ l, s'.blocker t = s.blocker t := fun t ht => hblocker p hpt t ((hl t).mp ht)
      unfold Kernel.InHands at hin ⊢
      rw [hf.pc p hpt, hf.last]
      cases hpc : s.pc p with
      | killWake e =>
          rw [hpc] at hin
          exact ⟨follows_congr hin.1 hb, hin.2⟩
      | killQueue e next =>
          rw [hpc] at hin
          obtain ⟨k, rfl, hk, hlast⟩ := hin
          exact ⟨k, rfl, follows_congr hk fun t ht => hb t (List.mem_cons_of_mem _ ht), hlast⟩
      | _ =>
          rw [hpc] at hin
          exact hin
  held := by
    intro t p ht he
    have he : place p = .gone := (hgone p).mp he
    by_cases hpt : p = s.current c
    · exact (h.cpus c).current (hpt ▸ he)
    · exact h.held t p ((hother p hpt t).mp ht) he
  tasks := by
    intro u hu
    have hu : place u ≠ .gone := fun he => hu ((hgone u).mpr he)
    by_cases ht : u = s.current c ∨ place' u ≠ place u ∨ s'.state u ≠ s.state u
    · exact htask u hu ht
    · obtain ⟨hne, hpl, hst⟩ := not_or.mp ht |>.imp id not_or.mp
      have hold := h.tasks u hu
      unfold Kernel.TaskOk at hold ⊢
      rw [hf.current, hf.pc u hne, not_not.mp hpl, not_not.mp hst, hf.pin, hf.last]
      exact hold
  cpus := by
    intro d
    have hd := h.cpus d
    have hcur : place' (s'.current d) ≠ .gone := by
      rw [hf.current]
      exact fun he => hd.current ((hgone _).mp he)
    refine
      { current := hcur
        currentHome := by
          rw [hf.current]
          exact hd.currentHome
        idle := by
          rw [hf.idle]
          exact (hidle _).mpr hd.idle
        idleHome := by
          rw [hf.idle]
          exact hd.idleHome
        masked := ?_
        ticked := ?_
        tick := ?_
        sleepers := ?_
        sleeping := hsleeping d }
    · rw [hf.current]
      by_cases hdc : d = c
      · subst hdc
        exact hmasked
      · rw [hf.interrupts d hdc, hf.pc _ fun he => hdc (current_inj h he)]
        exact hd.masked
    · intro ht
      by_cases hdc : d = c
      · subst hdc
        rw [hf.tick] at ht
        exact absurd hoff ht
      · rw [hf.interrupts d hdc]
        exact hd.ticked (hf.tick ▸ ht)
    · have htick := hd.tick
      unfold Kernel.TickOk at htick ⊢
      rw [hf.tick]
      by_cases hdc : d = c
      · subst hdc
        rw [hoff]
        exact True.intro
      · rw [hf.sleepers d hdc]
        cases hk : s.tick d with
        | cleaning e =>
            rw [hk] at htick
            exact fun t ht => ⟨hzombie t (htick t ht).1, (htick t ht).2⟩
        | off => exact True.intro
        | sleepers kept rest =>
            rw [hk] at htick
            exact htick
        | waking kept t rest =>
            rw [hk] at htick
            exact htick
    · by_cases hdc : d = c
      · subst hdc
        exact hsleepers
      · rw [hf.sleepers d hdc]
        exact hd.sleepers
  idles := by
    intro t ht
    rw [hf.idle]
    exact h.idles t ((hidle t).mp ht)
  refs :=
    { live := by
        intro t
        rw [hf.live, h.refs.live t]
        exact not_congr (hgone t).symm
      nodup := hf.live ▸ h.refs.nodup
      refs := by
        intro u hu
        rw [hf.live]
        exact hrefs.1 u fun he => hu ((hgone u).mpr he)
      targets := by
        intro j b hj hb he
        have he : place b = .gone := (hgone b).mp he
        by_cases hjt : j = s.current c
        · subst hjt
          exact hrefs.2 b hb he
        · rw [hf.pc j hjt] at hb
          exact h.refs.targets j b (fun hg => hj ((hgone j).mpr hg)) hb he }

/-! ## 5. Counters -/

/-- One term of a count changed. -/
theorem countP_change {l : List TaskPtr} {f g : TaskPtr → Option TaskPtr} {t : TaskPtr} (hnd : l.Nodup)
    (ht : t ∈ l) (hfg : ∀ j, j ≠ t → g j = f j) (u : TaskPtr) :
    l.countP (fun j => g j = some u) + (if f t = some u then 1 else 0) =
      l.countP (fun j => f j = some u) + (if g t = some u then 1 else 0) := by
  have hrest : (l.erase t).countP (fun j => g j = some u) = (l.erase t).countP (fun j => f j = some u) := by
    refine List.countP_congr fun j hj => ?_
    rw [hfg j fun he => (List.Nodup.mem_erase_iff hnd).mp hj |>.1 he]
  have hperm := List.perm_cons_erase ht
  rw [hperm.countP_eq, hperm.countP_eq, List.countP_cons, List.countP_cons, hrest]
  simp only [decide_eq_true_eq]
  omega

theorem refs_change (h : SchedInv s place home) (hpc : ∀ u, u ≠ s.current c → s'.pc u = s.pc u) (u : TaskPtr) :
    s.live.countP (fun j => (s'.pc j).target = some u) +
        (if (s.pc (s.current c)).target = some u then 1 else 0) =
      s.live.countP (fun j => (s.pc j).target = some u) +
        (if (s'.pc (s.current c)).target = some u then 1 else 0) :=
  countP_change (f := fun j => (s.pc j).target) (g := fun j => (s'.pc j).target) h.refs.nodup
    ((h.refs.live _).mpr (h.cpus c).current) (fun j hj => by rw [hpc j hj]) u

theorem refs_step (h : SchedInv s place home) (hpc : ∀ u, u ≠ s.current c → s'.pc u = s.pc u)
    (hrel : (s'.pc (s.current c)).released = (s.pc (s.current c)).released)
    (hrc : ∀ u, place u ≠ .gone →
      s'.refcount u + (if (s.pc (s.current c)).target = some u then 1 else 0) =
        s.refcount u + (if (s'.pc (s.current c)).target = some u then 1 else 0))
    (htgt : ∀ b, (s'.pc (s.current c)).target = some b → place b ≠ .gone) :
    s.Refs s' place (s.current c) := by
  refine ⟨fun u hu => ?_, htgt⟩
  have hcount := refs_change h hpc u
  have hsame : (s'.pc u).released = (s.pc u).released := by
    by_cases hut : u = s.current c
    · rw [hut, hrel]
    · rw [hpc u hut]
  have hold := h.refs.refs u hu
  have hnew := hrc u hu
  rw [hsame]
  omega

/-- A step that takes no reference and gives none back. -/
theorem refs_same (h : SchedInv s place home) (hpc : ∀ u, u ≠ s.current c → s'.pc u = s.pc u)
    (hrc : s'.refcount = s.refcount) {p p' : Pc} (hp : s.pc (s.current c) = p)
    (hp' : s'.pc (s.current c) = p') (htgt : p'.target = p.target) (hrel : p'.released = p.released) :
    s.Refs s' place (s.current c) := by
  subst hp hp'
  refine refs_step h hpc hrel (fun u _ => by rw [hrc, htgt]) fun b hb => ?_
  exact h.refs.targets _ b (h.cpus c).current (htgt ▸ hb)

/-- A step that takes a reference to `x`. -/
theorem refs_take (h : SchedInv s place home) (hpc : ∀ u, u ≠ s.current c → s'.pc u = s.pc u)
    {x : TaskPtr} (hx : place x ≠ .gone) (hrc : s'.refcount = update s.refcount x (s.refcount x + 1))
    {p p' : Pc} (hp : s.pc (s.current c) = p) (hp' : s'.pc (s.current c) = p')
    (hnone : p.target = none) (htgt : p'.target = some x) (hrel : p'.released = p.released) :
    s.Refs s' place (s.current c) := by
  subst hp hp'
  refine refs_step h hpc hrel (fun u _ => ?_) fun b hb => ?_
  · rw [hrc, hnone, htgt, update_apply]
    by_cases hux : u = x
    · subst hux
      simp
    · simp [hux, Ne.symm hux]
  · rw [htgt] at hb
    exact Option.some.inj hb ▸ hx

/-- A step that gives the reference to `x` back. -/
theorem refs_give (h : SchedInv s place home) (hpc : ∀ u, u ≠ s.current c → s'.pc u = s.pc u)
    {x : TaskPtr} (hx : s.refcount x ≠ 0) (hrc : s'.refcount = update s.refcount x (s.refcount x - 1))
    {p p' : Pc} (hp : s.pc (s.current c) = p) (hp' : s'.pc (s.current c) = p')
    (htgt : p.target = some x) (hnone : p'.target = none) (hrel : p'.released = p.released) :
    s.Refs s' place (s.current c) := by
  subst hp hp'
  refine refs_step h hpc hrel (fun u _ => ?_) fun b hb => ?_
  · rw [hrc, hnone, htgt, update_apply]
    by_cases hux : u = x
    · subst hux
      simp
      omega
    · simp [hux, Ne.symm hux]
  · rw [hnone] at hb
    cases hb

end Step

end Slightx
