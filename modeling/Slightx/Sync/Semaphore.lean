/-
  File:      Slightx/Sync/Semaphore.lean
  Subject:   A semaphore, used by any number of tasks.

  Source: klibc/sync/semaphore.c.

  A section under the lock of the semaphore is one step. `semaphore_release` wakes a waiter after its
  section, which is a step of its own. A task that was told to wait waits until it is woken. What the
  calls answer is kept apart from what they do: `semGrants` reads from the answers of a run who got
  a permit, `semReleases` counts the calls of `semaphore_release` among its events.

  * `SemInv` -- the balance: every release that has not woken its waiter yet has one in the queue;
  * `semInv_run` -- it holds after every run, of the grants and the releases of that run;
  * `permits_conserved` -- the grants are never more than the permits, and all of them but for those
    on their way
-/
import Slightx.Sync.Waitqueue

namespace Slightx

open Lib Function

/-! ## 1. Steps -/

inductive SemPhase where
  | away
  | waiting
  /-- between the section of `semaphore_release` and its wake-up -/
  | releasing
  deriving DecidableEq

/-- A semaphore with the tasks that use it. A task is named by its `waitqueue_item`. -/
structure SemSys where
  count : Int
  wq : Waitqueue
  siblings : ItemPtr → Links ItemPtr
  phase : ItemPtr → SemPhase

/-- `semaphore_status` -/
inductive SemaphoreStatus where
  | acquired
  | shouldWait
  deriving DecidableEq

inductive SemEvent where
  | acquire (t : ItemPtr)
  | tryAcquire (t : ItemPtr)
  | release (t : ItemPtr)
  | wake (t : ItemPtr)
  deriving DecidableEq

def semaphoreInit (initialCount : Int) : SemSys :=
  { count := initialCount
    wq := ⟨none, none⟩
    siblings := fun _ => ⟨none, none⟩
    phase := fun _ => .away }

/-- The section of `semaphore_acquire`; `waitqueue_add` is called in it. -/
def semaphoreAcquire (s : SemSys) (t : ItemPtr) : Option (SemaphoreStatus × SemSys) :=
  let s := { s with count := s.count - 1 }
  if 0 ≤ s.count then some (.acquired, s)
  else
    (waitqueueAdd s.wq t s.siblings).map fun r =>
      (.shouldWait, { s with wq := r.1, siblings := r.2, phase := update s.phase t .waiting })

def semaphoreTryAcquire (s : SemSys) : Bool × SemSys :=
  if 0 < s.count then (true, { s with count := s.count - 1 }) else (false, s)

/-- The section of `semaphore_release`. -/
def semaphoreRelease (s : SemSys) (t : ItemPtr) : SemSys :=
  let s := { s with count := s.count + 1 }
  if s.count ≤ 0 then { s with phase := update s.phase t .releasing } else s

/-- The wake-up of `semaphore_release`, with the waiter it woke. -/
def semaphoreWake (s : SemSys) (t : ItemPtr) : Option ItemPtr × SemSys :=
  let r := waitqueueWakeOne s.wq s.siblings
  let s := { s with wq := r.2.1, siblings := r.2.2, phase := update s.phase t .away }
  match r.1 with
  | none => (none, s)
  | some entry => (some entry, { s with phase := update s.phase entry .away })

/-- A step, with the task that it tells to go on with a permit. -/
def semAct (s : SemSys) : SemEvent → Option (Option ItemPtr × SemSys)
  | .acquire t =>
      if s.phase t = .away then
        (semaphoreAcquire s t).map fun r => (if r.1 = .acquired then some t else none, r.2)
      else none
  | .tryAcquire t =>
      if s.phase t = .away then
        let r := semaphoreTryAcquire s
        some (if r.1 then some t else none, r.2)
      else none
  | .release t => if s.phase t = .away then some (none, semaphoreRelease s t) else none
  | .wake t => if s.phase t = .releasing then some (semaphoreWake s t) else none

def semStep : SemSys → SemEvent → Option SemSys := silent semAct

/-- The tasks that got a permit in a run, in the order they got it. -/
def semGrants (s : SemSys) (es : List SemEvent) : List ItemPtr :=
  (outputs semAct s es).filterMap id

def SemEvent.isRelease : SemEvent → Bool
  | .release _ => true
  | _ => false

/-- How many calls of `semaphore_release` were started. -/
def semReleases (es : List SemEvent) : Nat := es.countP SemEvent.isRelease

/-! ## 2. The balance -/

/-- **The balance** after `granted` grants and `released` releases: `queue` waits, the tasks of
    `owed` are about to wake one each, and all permits are granted, free, or owed. -/
structure SemInv (initial : Int) (granted released : Nat) (s : SemSys) (queue owed : List ItemPtr) :
    Prop where
  holds : QueueIs s.wq s.siblings queue
  waiting : ∀ t, t ∈ queue ↔ s.phase t = .waiting
  owing : ∀ t, t ∈ owed ↔ s.phase t = .releasing
  nodup : owed.Nodup
  waiters : (queue.length : Int) = max 0 (-s.count) + owed.length
  permits : granted + max 0 s.count + owed.length = initial + released

section Balance

variable {initial : Int} {granted released : Nat} {s s' : SemSys} {queue owed : List ItemPtr}
  {t : ItemPtr} {e : SemEvent} {es : List SemEvent} {status : SemaphoreStatus}
  {got : Option ItemPtr}

theorem semInv_init (h : 0 ≤ initial) : SemInv initial 0 0 (semaphoreInit initial) [] [] := by
  refine ⟨queueIs_init, fun t => ?_, fun t => ?_, List.nodup_nil, ?_, ?_⟩
  · exact ⟨fun h => absurd h List.not_mem_nil, fun h => by cases h⟩
  · exact ⟨fun h => absurd h List.not_mem_nil, fun h => by cases h⟩
  · show (0 : Int) = max 0 (-initial) + 0
    omega
  · show (0 : Int) + max 0 initial + 0 = initial + 0
    omega

theorem semInv_acquire (h : SemInv initial granted released s queue owed) (ht : s.phase t = .away)
    (hs : semaphoreAcquire s t = some (status, s')) :
    ∃ queue', SemInv initial (granted + if status = .acquired then 1 else 0) released s' queue'
      owed := by
  have hw := h.waiters
  have hp := h.permits
  unfold semaphoreAcquire at hs
  dsimp only at hs
  split at hs
  · cases hs
    refine ⟨queue, h.holds, h.waiting, h.owing, h.nodup, ?_, ?_⟩
    · show (queue.length : Int) = max 0 (-(s.count - 1)) + owed.length
      omega
    · show ((granted + 1 : Nat) : Int) + max 0 (s.count - 1) + owed.length = initial + released
      omega
  · have hout : t ∉ queue := fun hin => by
      rw [(h.waiting t).mp hin] at ht
      cases ht
    obtain ⟨r, hr, hq⟩ := queueIs_add h.holds hout
    rw [hr] at hs
    cases hs
    refine ⟨queue ++ [t], hq, fun u => ?_, fun u => ?_, h.nodup, ?_, ?_⟩
    · show u ∈ queue ++ [t] ↔ update s.phase t .waiting u = .waiting
      rw [List.mem_append, List.mem_singleton]
      by_cases hu : u = t
      · subst hu
        simp
      · rw [update_of_ne hu, h.waiting u]
        simp [hu]
    · show u ∈ owed ↔ update s.phase t .waiting u = .releasing
      by_cases hu : u = t
      · subst hu
        rw [update_self, h.owing u, ht]
        simp
      · rw [update_of_ne hu]
        exact h.owing u
    · show ((queue ++ [t]).length : Int) = max 0 (-(s.count - 1)) + owed.length
      rw [List.length_append, List.length_singleton]
      omega
    · show (granted : Int) + max 0 (s.count - 1) + owed.length = initial + released
      omega

theorem semInv_tryAcquire (h : SemInv initial granted released s queue owed) :
    SemInv initial (granted + if (semaphoreTryAcquire s).1 then 1 else 0) released
      (semaphoreTryAcquire s).2 queue owed := by
  have hw := h.waiters
  have hp := h.permits
  unfold semaphoreTryAcquire
  split
  · refine ⟨h.holds, h.waiting, h.owing, h.nodup, ?_, ?_⟩
    · show (queue.length : Int) = max 0 (-(s.count - 1)) + owed.length
      omega
    · show ((granted + 1 : Nat) : Int) + max 0 (s.count - 1) + owed.length = initial + released
      omega
  · exact h

theorem semInv_release (h : SemInv initial granted released s queue owed)
    (ht : s.phase t = .away) :
    ∃ owed', SemInv initial granted (released + 1) (semaphoreRelease s t) queue owed' := by
  have hw := h.waiters
  have hp := h.permits
  unfold semaphoreRelease
  dsimp only
  split
  · have hout : t ∉ owed := fun hin => by
      rw [(h.owing t).mp hin] at ht
      cases ht
    refine ⟨t :: owed, h.holds, fun u => ?_, fun u => ?_, List.nodup_cons.mpr ⟨hout, h.nodup⟩, ?_, ?_⟩
    · show u ∈ queue ↔ update s.phase t .releasing u = .waiting
      by_cases hu : u = t
      · subst hu
        rw [update_self, h.waiting u, ht]
        simp
      · rw [update_of_ne hu]
        exact h.waiting u
    · show u ∈ t :: owed ↔ update s.phase t .releasing u = .releasing
      rw [List.mem_cons]
      by_cases hu : u = t
      · subst hu
        simp
      · rw [update_of_ne hu, h.owing u]
        simp [hu]
    · show (queue.length : Int) = max 0 (-(s.count + 1)) + (t :: owed).length
      rw [List.length_cons]
      omega
    · show (granted : Int) + max 0 (s.count + 1) + (t :: owed).length =
        initial + (released + 1 : Nat)
      rw [List.length_cons]
      omega
  · refine ⟨owed, h.holds, h.waiting, h.owing, h.nodup, ?_, ?_⟩
    · show (queue.length : Int) = max 0 (-(s.count + 1)) + owed.length
      omega
    · show (granted : Int) + max 0 (s.count + 1) + owed.length = initial + (released + 1 : Nat)
      omega

/-- A release that is owed finds a waiter. -/
theorem semInv_wake (h : SemInv initial granted released s queue owed)
    (ht : s.phase t = .releasing) :
    ∃ entry queue' owed', (semaphoreWake s t).1 = some entry ∧
      SemInv initial (granted + 1) released (semaphoreWake s t).2 queue' owed' := by
  have hin := (h.owing t).mpr ht
  have hlen : (owed.erase t).length + 1 = owed.length := by
    rw [List.length_erase_of_mem hin]
    have := List.length_pos_of_mem hin
    omega
  have hw := h.waiters
  have hp := h.permits
  cases queue with
  | nil =>
      rw [List.length_nil] at hw
      omega
  | cons entry m =>
      obtain ⟨wq', hpop, hq⟩ := queueIs_wakeOne h.holds
      have hentry : s.phase entry = .waiting := (h.waiting entry).mp List.mem_cons_self
      have hne : entry ≠ t := fun he => by
        rw [he, ht] at hentry
        cases hentry
      have hem : entry ∉ m := (List.nodup_cons.mp h.holds.chain.nodup).1
      have hphase : ∀ u, update (update s.phase t .away) entry .away u =
          if u = entry ∨ u = t then .away else s.phase u := by
        intro u
        by_cases hue : u = entry
        · rw [hue, update_self, if_pos (Or.inl rfl)]
        · rw [update_of_ne hue]
          by_cases hut : u = t
          · rw [hut, update_self, if_pos (Or.inr rfl)]
          · rw [update_of_ne hut, if_neg fun hor => hor.elim hue hut]
      unfold semaphoreWake
      rw [hpop]
      refine ⟨entry, m, owed.erase t, rfl, hq, fun u => ?_, fun u => ?_, h.nodup.erase t, ?_, ?_⟩
      · show u ∈ m ↔ update (update s.phase t .away) entry .away u = .waiting
        rw [hphase u]
        have hu := h.waiting u
        rw [List.mem_cons] at hu
        split
        · rename_i hor
          rcases hor with rfl | rfl
          · simp [hem]
          · rw [ht] at hu
            simp only [reduceCtorEq, iff_false, not_or] at hu ⊢
            exact hu.2
        · rename_i hor
          rw [not_or] at hor
          rw [← hu]
          simp [hor.1]
      · show u ∈ owed.erase t ↔ update (update s.phase t .away) entry .away u = .releasing
        rw [hphase u, h.nodup.mem_erase_iff, h.owing u]
        split
        · rename_i hor
          rcases hor with rfl | rfl
          · rw [hentry]
            simp
          · simp
        · rename_i hor
          rw [not_or] at hor
          simp [hor.2]
      · show (m.length : Int) = max 0 (-s.count) + (owed.erase t).length
        rw [List.length_cons] at hw
        omega
      · show ((granted + 1 : Nat) : Int) + max 0 s.count + (owed.erase t).length =
          initial + released
        omega

/-- **One step.** -/
theorem semInv_step (h : SemInv initial granted released s queue owed)
    (hs : semAct s e = some (got, s')) :
    ∃ queue' owed', SemInv initial (granted + got.toList.length)
      (released + if e.isRelease then 1 else 0) s' queue' owed' := by
  cases e with
  | acquire t =>
      rw [semAct] at hs
      split at hs
      · rename_i ht
        obtain ⟨⟨status, s'⟩, hacq, hr⟩ := Option.map_eq_some_iff.mp hs
        cases hr
        obtain ⟨queue', h'⟩ := semInv_acquire h ht hacq
        refine ⟨queue', owed, ?_⟩
        cases status with
        | acquired => exact h'
        | shouldWait => exact h'
      · cases hs
  | tryAcquire t =>
      rw [semAct] at hs
      split at hs
      · cases hs
        have h' := semInv_tryAcquire h
        refine ⟨queue, owed, ?_⟩
        cases hgot : (semaphoreTryAcquire s).1 with
        | true =>
            rw [hgot] at h'
            exact h'
        | false =>
            rw [hgot] at h'
            exact h'
      · cases hs
  | release t =>
      rw [semAct] at hs
      split at hs
      · rename_i ht
        cases hs
        exact ⟨queue, semInv_release h ht⟩
      · cases hs
  | wake t =>
      rw [semAct] at hs
      split at hs
      · rename_i ht
        obtain ⟨entry, queue', owed', hgot, h'⟩ := semInv_wake h ht
        obtain hr := Option.some.inj hs
        rw [hr] at hgot h'
        subst hgot
        exact ⟨queue', owed', h'⟩
      · cases hs

/-- **Every run**, by induction on its events. -/
theorem semInv_run (hinit : 0 ≤ initial)
    (hrun : Runs semStep (fun _ _ => True) (semaphoreInit initial) es s) :
    ∃ queue owed, SemInv initial (semGrants (semaphoreInit initial) es).length (semReleases es) s
      queue owed := by
  induction hrun with
  | start => exact ⟨[], [], semInv_init hinit⟩
  | @step es t t' e hrun _ hs ih =>
      obtain ⟨queue, owed, h⟩ := ih
      obtain ⟨⟨got, t'⟩, hact, rfl⟩ := Option.map_eq_some_iff.mp hs
      obtain ⟨queue', owed', h'⟩ := semInv_step h hact
      refine ⟨queue', owed', ?_⟩
      have hgrants : (semGrants (semaphoreInit initial) (es ++ [e])).length =
          (semGrants (semaphoreInit initial) es).length + got.toList.length := by
        rw [semGrants, semGrants, outputs_snoc hrun hact, List.filterMap_append, List.length_append]
        cases got with
        | none => rfl
        | some u => rfl
      have hreleases : semReleases (es ++ [e]) = semReleases es + if e.isRelease then 1 else 0 := by
        rw [semReleases, semReleases, List.countP_append, List.countP_singleton]
      rw [hgrants, hreleases]
      exact h'

/-- **Permits are conserved.** The grants of a run are never more than the permits there were and
    the releases it started; and while no release is between its two steps, as many wait as the count
    says, and all permits are granted or free. -/
theorem permits_conserved (hinit : 0 ≤ initial)
    (hrun : Runs semStep (fun _ _ => True) (semaphoreInit initial) es s) :
    (semGrants (semaphoreInit initial) es).length ≤ initial + semReleases es ∧
      ((∀ t, s.phase t ≠ .releasing) →
        (∃ queue, DList s.siblings s.wq.head s.wq.tail queue ∧
          (∀ t, t ∈ queue ↔ s.phase t = .waiting) ∧ (queue.length : Int) = max 0 (-s.count)) ∧
        (semGrants (semaphoreInit initial) es).length + max 0 s.count = initial + semReleases es) := by
  obtain ⟨queue, owed, h⟩ := semInv_run hinit hrun
  have hw := h.waiters
  have hp := h.permits
  refine ⟨by omega, fun hnone => ?_⟩
  have howed : owed = [] := by
    refine List.eq_nil_iff_forall_not_mem.mpr fun t ht => hnone t ((h.owing t).mp ht)
  rw [howed, List.length_nil] at hw hp
  exact ⟨⟨queue, h.holds.chain, h.waiting, by omega⟩, by omega⟩

end Balance

/-- One permit for three tasks: the first has it, the other two wait, and its release wakes the one
    that came first. A fourth task tries in between and gets nothing. -/
theorem permits_conserved_three : ∃ s,
    Runs semStep (fun _ _ => True) (semaphoreInit 1)
        [.acquire 1, .acquire 2, .acquire 3, .release 1, .tryAcquire 4, .wake 1] s ∧
      semGrants (semaphoreInit 1)
        [.acquire 1, .acquire 2, .acquire 3, .release 1, .tryAcquire 4, .wake 1] = [1, 2] ∧
      s.phase 2 = .away ∧ s.phase 3 = .waiting ∧
      (∃ queue, DList s.siblings s.wq.head s.wq.tail queue ∧
        (∀ t, t ∈ queue ↔ s.phase t = .waiting) ∧ (queue.length : Int) = 1) ∧
      ((2 : Nat) : Int) + max 0 s.count = 1 + (1 : Nat) := by
  have hrun : Runs semStep (fun _ _ => True) (semaphoreInit 1)
      [.acquire 1, .acquire 2, .acquire 3, .release 1, .tryAcquire 4, .wake 1] _ := runs_exec rfl
  refine ⟨_, hrun, rfl, rfl, rfl, (permits_conserved (by decide) hrun).2 fun t => ?_⟩
  by_cases h1 : t = 1
  · subst h1
    decide
  by_cases h2 : t = 2
  · subst h2
    decide
  by_cases h3 : t = 3
  · subst h3
    decide
  simp [semaphoreRelease, semaphoreTryAcquire, semaphoreWake, semaphoreInit, waitqueueWakeOne,
    update_of_ne h1, update_of_ne h2, update_of_ne h3]

end Slightx
