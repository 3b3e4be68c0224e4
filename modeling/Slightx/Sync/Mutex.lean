/-
  File:      Slightx/Sync/Mutex.lean
  Subject:   A mutex, used by any number of tasks.

  Source: klibc/sync/mutex.c.

  A section under the lock of the mutex is one step, and the wake-up of `mutex_unlock` is a step of
  its own. A task that was told to wait waits until it is woken and calls `mutex_lock` again.

  * `never_stranded` -- while a free mutex has waiters, a wake-up or a retry is due;
  * `owner_keeps` -- where each unlock is by the owner, the mutex is the owner's until then;
  * `unlock_by_other` -- the token of `mutex_unlock` is not looked at
-/
import Slightx.Sync.Waitqueue

namespace Slightx

open Lib Function

/-! ## 1. Steps -/

/-- The token a caller gives as the owner; it is not `NULL`. -/
abbrev Owner := Nat

inductive MutexPhase where
  | away
  | waiting
  /-- woken, and due to call `mutex_lock` again -/
  | woken
  /-- between the section of `mutex_unlock` and its wake-up; whether the token was another's is read
      by no step -/
  | unlocking (foreign : Bool)
  deriving DecidableEq

/-- A mutex with the tasks that use it, each named by its `waitqueue_item`. -/
structure MutexSys where
  owner : Option Owner
  wq : Waitqueue
  siblings : ItemPtr → Links ItemPtr
  phase : ItemPtr → MutexPhase

inductive MutexEvent where
  | lock (t : ItemPtr) (owner : Owner)
  | tryLock (t : ItemPtr) (owner : Owner)
  | unlock (t : ItemPtr) (owner : Owner)
  | wake (t : ItemPtr)
  deriving DecidableEq

def mutexInit : MutexSys :=
  { owner := none
    wq := ⟨none, none⟩
    siblings := fun _ => ⟨none, none⟩
    phase := fun _ => .away }

/-- `mutex_lock`, for the task whose item is `t`. -/
def mutexLock (s : MutexSys) (t : ItemPtr) (owner : Owner) : Option MutexSys :=
  if s.owner = none then some { s with owner := some owner, phase := update s.phase t .away }
  else
    (waitqueueAdd s.wq t s.siblings).map fun r =>
      { s with wq := r.1, siblings := r.2, phase := update s.phase t .waiting }

def mutexTryLock (s : MutexSys) (owner : Owner) : MutexSys :=
  if s.owner = none then { s with owner := some owner } else s

/-- The section of `mutex_unlock`: the token it gets is not looked at. -/
def mutexUnlock (s : MutexSys) (t : ItemPtr) (owner : Owner) : MutexSys :=
  { s with owner := none, phase := update s.phase t (.unlocking (s.owner ≠ some owner)) }

/-- The wake-up of `mutex_unlock`. -/
def mutexWake (s : MutexSys) (t : ItemPtr) : MutexSys :=
  let r := waitqueueWakeOne s.wq s.siblings
  let s := { s with wq := r.2.1, siblings := r.2.2, phase := update s.phase t .away }
  match r.1 with
  | none => s
  | some entry => { s with phase := update s.phase entry .woken }

def mutexStep (s : MutexSys) : MutexEvent → Option MutexSys
  | .lock t owner =>
      if s.phase t = .away ∨ s.phase t = .woken then mutexLock s t owner else none
  | .tryLock t owner => if s.phase t = .away then some (mutexTryLock s owner) else none
  | .unlock t owner => if s.phase t = .away then some (mutexUnlock s t owner) else none
  | .wake t =>
      match s.phase t with
      | .unlocking _ => some (mutexWake s t)
      | _ => none

/-! ## 2. Waiters -/

/-- **The waiters**: those in the queue wait, and while the mutex is free somebody is due to take it,
    or to wake one of them. -/
structure MutexInv (s : MutexSys) (queue : List ItemPtr) : Prop where
  holds : QueueIs s.wq s.siblings queue
  waiting : ∀ t, t ∈ queue ↔ s.phase t = .waiting
  due : s.owner = none → queue ≠ [] → ∃ t, (∃ b, s.phase t = .unlocking b) ∨ s.phase t = .woken

section Waiters

variable {s s' : MutexSys} {queue : List ItemPtr} {t : ItemPtr} {o : Owner} {e : MutexEvent}
  {es : List MutexEvent}

theorem mutexInv_init : MutexInv mutexInit [] := by
  refine ⟨queueIs_init, fun t => ?_, fun _ hne => absurd rfl hne⟩
  exact ⟨fun h => absurd h List.not_mem_nil, fun h => by cases h⟩

theorem mutexInv_lock (h : MutexInv s queue) (ht : s.phase t = .away ∨ s.phase t = .woken)
    (hs : mutexLock s t o = some s') : ∃ queue', MutexInv s' queue' := by
  have hne : s.phase t ≠ .waiting := by
    rcases ht with ht | ht
    · rw [ht]
      decide
    · rw [ht]
      decide
  unfold mutexLock at hs
  split at hs
  · cases hs
    refine ⟨queue, h.holds, fun u => ?_, fun ho => by cases ho⟩
    show u ∈ queue ↔ update s.phase t .away u = .waiting
    by_cases hu : u = t
    · subst hu
      rw [update_self, h.waiting u]
      exact ⟨fun hw => absurd hw hne, fun hw => by cases hw⟩
    · rw [update_of_ne hu]
      exact h.waiting u
  · rename_i hown
    obtain ⟨r, hr, hq⟩ := queueIs_add h.holds fun hin => hne ((h.waiting t).mp hin)
    rw [hr] at hs
    cases hs
    refine ⟨queue ++ [t], hq, fun u => ?_, fun ho => absurd ho hown⟩
    show u ∈ queue ++ [t] ↔ update s.phase t .waiting u = .waiting
    rw [List.mem_append, List.mem_singleton]
    by_cases hu : u = t
    · subst hu
      simp
    · rw [update_of_ne hu, h.waiting u]
      simp [hu]

theorem mutexInv_tryLock (h : MutexInv s queue) : MutexInv (mutexTryLock s o) queue := by
  unfold mutexTryLock
  split
  · exact ⟨h.holds, h.waiting, fun ho => by cases ho⟩
  · exact h

/-- The task between the two steps of `mutex_unlock` is the one that is due. -/
theorem mutexInv_unlock (h : MutexInv s queue) (ht : s.phase t = .away) :
    MutexInv (mutexUnlock s t o) queue := by
  refine ⟨h.holds, fun u => ?_, fun _ _ => ⟨t, Or.inl ⟨_, update_self _ _ _⟩⟩⟩
  show u ∈ queue ↔ update s.phase t (.unlocking (s.owner ≠ some o)) u = .waiting
  by_cases hu : u = t
  · subst hu
    rw [update_self, h.waiting u, ht]
    simp
  · rw [update_of_ne hu]
    exact h.waiting u

/-- The task that is woken is the one that is due. -/
theorem mutexInv_wake (h : MutexInv s queue) {b : Bool} (ht : s.phase t = .unlocking b) :
    ∃ queue', MutexInv (mutexWake s t) queue' := by
  cases queue with
  | nil =>
      have hpop := waitqueueWakeOne_nil h.holds.chain
      unfold mutexWake
      rw [hpop]
      refine ⟨[], h.holds, fun u => ?_, fun _ hne => absurd rfl hne⟩
      show u ∈ [] ↔ update s.phase t .away u = .waiting
      by_cases hu : u = t
      · subst hu
        simp
      · rw [update_of_ne hu]
        exact h.waiting u
  | cons entry m =>
      obtain ⟨wq', hpop, hq⟩ := queueIs_wakeOne h.holds
      have hem : entry ∉ m := (List.nodup_cons.mp h.holds.chain.nodup).1
      unfold mutexWake
      rw [hpop]
      refine ⟨m, hq, fun u => ?_, fun _ _ => ⟨entry, Or.inr (update_self _ _ _)⟩⟩
      show u ∈ m ↔ update (update s.phase t .away) entry .woken u = .waiting
      have hu := h.waiting u
      rw [List.mem_cons] at hu
      by_cases hue : u = entry
      · subst hue
        simp [hem]
      · rw [update_of_ne hue]
        by_cases hut : u = t
        · subst hut
          rw [update_self]
          rw [ht] at hu
          simp only [reduceCtorEq, iff_false, not_or] at hu ⊢
          exact hu.2
        · rw [update_of_ne hut, ← hu]
          simp [hue]

/-- **One step.** -/
theorem mutexInv_step (h : MutexInv s queue) (hs : mutexStep s e = some s') :
    ∃ queue', MutexInv s' queue' := by
  cases e with
  | lock t o =>
      rw [mutexStep] at hs
      split at hs
      · rename_i ht
        exact mutexInv_lock h ht hs
      · cases hs
  | tryLock t o =>
      rw [mutexStep] at hs
      split at hs
      · cases hs
        exact ⟨queue, mutexInv_tryLock h⟩
      · cases hs
  | unlock t o =>
      rw [mutexStep] at hs
      split at hs
      · rename_i ht
        cases hs
        exact ⟨queue, mutexInv_unlock h ht⟩
      · cases hs
  | wake t =>
      rw [mutexStep] at hs
      split at hs
      · rename_i ht
        cases hs
        exact mutexInv_wake h ht
      · cases hs

/-- **No waiter is stranded.** While the mutex has no owner and a waiter is queued, there is an
    unlock whose wake-up is still due, or a task that was woken and has not tried again. -/
theorem never_stranded (hrun : Runs mutexStep (fun _ _ => True) mutexInit es s)
    (howner : s.owner = none) {x : ItemPtr} (hx : Reaches s.siblings x s.wq.head) :
    ∃ t, (∃ b, s.phase t = .unlocking b) ∨ s.phase t = .woken := by
  obtain ⟨queue, h⟩ : ∃ queue, MutexInv s queue := by
    refine runs_inv (fun s => ∃ queue, MutexInv s queue) ⟨[], mutexInv_init⟩
      (fun t e t' ht _ hs => ?_) hrun
    obtain ⟨queue, h⟩ := ht
    exact mutexInv_step h hs
  refine h.due howner fun hnil => ?_
  have hin := (dlist_reaches h.holds.chain).mp hx
  rw [hnil] at hin
  exact absurd hin List.not_mem_nil

end Waiters

/-- Task 2 waits while task 1 has the mutex and gives it up. -/
theorem never_stranded_two : ∃ s,
    Runs mutexStep (fun _ _ => True) mutexInit [.lock 1 1, .lock 2 2, .unlock 1 1] s ∧
      ∃ t, (∃ b, s.phase t = .unlocking b) ∨ s.phase t = .woken := by
  have hrun : Runs mutexStep (fun _ _ => True) mutexInit [.lock 1 1, .lock 2 2, .unlock 1 1] _ :=
    runs_exec rfl
  exact ⟨_, hrun, never_stranded hrun rfl (x := 2) .here⟩

/-! ## 3. Owners -/

/-- The step is one of an unlock with a token that is not the owner's. -/
def Foreign (s : MutexSys) : MutexEvent → Prop
  | .unlock _ owner => s.owner ≠ some owner
  | .wake t => s.phase t = .unlocking true
  | _ => False

/-- Who unlocks is the owner, or finds a mutex that nobody owns and nobody waits for. -/
def ByOwner (s : MutexSys) : MutexEvent → Prop
  | .unlock _ owner => s.owner = some owner ∨ s.owner = none
  | .wake t => s.phase t = .unlocking true → s.wq.head = none
  | _ => True

instance : ∀ s e, Decidable (ByOwner s e)
  | s, .unlock _ owner => inferInstanceAs (Decidable (s.owner = some owner ∨ s.owner = none))
  | s, .wake t => inferInstanceAs (Decidable (s.phase t = .unlocking true → s.wq.head = none))
  | _, .lock _ _ => isTrue True.intro
  | _, .tryLock _ _ => isTrue True.intro

section Owners

variable {s s' : MutexSys} {o : Owner} {e : MutexEvent} {es es' : List MutexEvent}

theorem mutexWake_owner (t : ItemPtr) : (mutexWake s t).owner = s.owner := by
  unfold mutexWake
  dsimp only
  split
  · rfl
  · rfl

/-- **One step** takes the mutex from its owner only if it is an unlock. -/
theorem owner_step (hs : mutexStep s e = some s') (ho : s.owner = some o) (hby : ByOwner s e)
    (he : ∀ t, e ≠ .unlock t o) : s'.owner = some o := by
  have hne : s.owner ≠ none := by
    rw [ho]
    exact Option.some_ne_none o
  cases e with
  | lock t o' =>
      rw [mutexStep] at hs
      split at hs
      · unfold mutexLock at hs
        rw [if_neg hne] at hs
        obtain ⟨r, -, rfl⟩ := Option.map_eq_some_iff.mp hs
        exact ho
      · cases hs
  | tryLock t o' =>
      rw [mutexStep] at hs
      split at hs
      · cases hs
        unfold mutexTryLock
        rw [if_neg hne]
        exact ho
      · cases hs
  | unlock t o' =>
      rcases hby with hown | hown
      · rw [ho] at hown
        cases hown
        exact absurd rfl (he t)
      · exact absurd hown hne
  | wake t =>
      rw [mutexStep] at hs
      split at hs
      · cases hs
        rw [mutexWake_owner]
        exact ho
      · cases hs

/-- An unlock of a mutex that is free, and that nobody waits for, changes neither. -/
theorem foreign_step (hs : mutexStep s e = some s') (hf : Foreign s e) (hby : ByOwner s e) :
    s'.owner = s.owner ∧ s'.wq = s.wq ∧ s'.siblings = s.siblings := by
  cases e with
  | lock t o' => exact hf.elim
  | tryLock t o' => exact hf.elim
  | unlock t o' =>
      have hnone : s.owner = none := hby.resolve_left hf
      rw [mutexStep] at hs
      split at hs
      · cases hs
        exact ⟨hnone.symm, rfl, rfl⟩
      · cases hs
  | wake t =>
      have hempty : s.wq.head = none := hby hf
      rw [mutexStep] at hs
      split at hs
      · cases hs
        have hpop : waitqueueWakeOne s.wq s.siblings = (none, s.wq, s.siblings) := by
          unfold waitqueueWakeOne
          rw [hempty]
        unfold mutexWake
        rw [hpop]
        exact ⟨rfl, rfl, rfl⟩
      · cases hs

/-- A run where each unlock is by the owner, computed. -/
theorem byOwner_exec (h : execIf mutexStep (fun s e => decide (ByOwner s e)) s es = some s') :
    Runs mutexStep ByOwner s es s' :=
  runs_mono (fun _ _ he => of_decide_eq_true he) (runs_execIf h)

/-- **The owner keeps the mutex.** In a run, from any state, where each unlock is by the owner, or of
    a mutex nobody has or waits for: once `o` has the mutex, it has it until it unlocks it; and an
    unlock with a foreign token changes neither the owner nor the queue. -/
theorem owner_keeps (s : MutexSys) :
    (∀ o es' s', s.owner = some o → Runs mutexStep ByOwner s es' s' → (∀ t, .unlock t o ∉ es') →
      s'.owner = some o) ∧
    ∀ e s', Foreign s e → ByOwner s e → mutexStep s e = some s' →
      s'.owner = s.owner ∧ s'.wq = s.wq ∧ s'.siblings = s.siblings := by
  refine ⟨fun o es' s' ho hrun' hes => ?_, fun e s' hf hby hs => foreign_step hs hf hby⟩
  induction hrun' with
  | start => exact ho
  | step _ hby hs ih =>
      refine owner_step hs (ih fun t ht => hes t (List.mem_append_left _ ht)) hby fun t he => ?_
      refine hes t (List.mem_append_right _ ?_)
      rw [he]
      exact List.mem_cons_self

end Owners

/-- Owner 2 has to wait until owner 1 has unlocked the mutex; when both are through, an unlock with a
    third token leaves it free. -/
theorem owner_keeps_two : ∃ s₁ s₂ s₃ : MutexSys,
    Runs mutexStep ByOwner mutexInit [.lock 1 1] s₁ ∧
    (∀ s', mutexStep s₁ (.lock 2 2) = some s' → s'.owner = some 1) ∧
    Runs mutexStep ByOwner s₁ [.lock 2 2, .unlock 1 1, .wake 1, .lock 2 2] s₂ ∧
    s₂.owner = some 2 ∧
    Runs mutexStep ByOwner s₂ [.unlock 2 2, .wake 2] s₃ ∧
    ∀ s', mutexStep s₃ (.unlock 3 3) = some s' → s'.owner = none ∧ s'.wq = s₃.wq := by
  refine ⟨_, _, _, byOwner_exec rfl, fun s' hs => (owner_keeps _).1 1 [.lock 2 2] s' rfl
      (.step .start True.intro hs) fun t ht => ?_,
    byOwner_exec rfl, rfl, byOwner_exec rfl, fun s' hs => ?_⟩
  · rw [List.mem_singleton] at ht
    cases ht
  · have hkeep := ((owner_keeps _).2 (.unlock 3 3) s' · · hs)
    obtain ⟨ho, hwq, -⟩ := hkeep (show (none : Option Owner) ≠ some 3 from nofun) (Or.inr rfl)
    exact ⟨ho, hwq⟩
/-- **An unlock by somebody else**: owner 1 never unlocks, and owner 2 gets the mutex. -/
theorem unlock_by_other : ∃ s s',
    Runs mutexStep (fun _ _ => True) mutexInit [.lock 1 1] s ∧ s.owner = some 1 ∧
      Runs mutexStep (fun _ _ => True) s [.unlock 2 2, .wake 2, .lock 2 2] s' ∧
      s'.owner = some 2 :=
  ⟨_, _, runs_exec rfl, rfl, runs_exec rfl, rfl⟩

end Slightx
