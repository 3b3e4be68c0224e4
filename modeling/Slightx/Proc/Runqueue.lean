/-
  File:      Slightx/Proc/Runqueue.lean
  Subject:   A run queue is a list of tasks, first in, first out.

  Sources: kernel/proc/scheduler/runqueue.c, kernel/proc/scheduler/controller.c
  (`scheduler_cleanup`), kernel/proc/task.c (`memset` of `task_deinit`).

  One queue, the links and counters of all tasks, and what was done to them: `returned` has what
  `runqueue_dequeue` returned, `freed` the tasks `scheduler_cleanup` freed. Between two calls other
  code may write the links of tasks that are in other queues or in none, and any counter. The loop
  of `scheduler_cleanup` passes as many tasks as the queue counts at most.

  * `RqSpec` -- what the queue is for: a list;
  * `rqInv_cleanup` -- one pass, by induction on the part of the list it still has to visit;
  * `runqueue_refines` -- in every run the links spell the list of `RqSpec` from both ends, the
    counter is its length, and every call can be made
-/
import Slightx.Lib.Machine
import Slightx.Proc.Scheduler

namespace Slightx

open Lib Function

/-! ## 1. The queue and its calls -/

structure RqSys where
  queue : Runqueue
  siblings : TaskPtr → Links TaskPtr
  refcount : TaskPtr → Nat
  returned : List (Option TaskPtr)
  freed : List TaskPtr

inductive RqEvent where
  | enqueue (t : TaskPtr)
  | dequeue
  | remove (t : TaskPtr)
  | cleanup
  /-- other code writes links and counters -/
  | others (siblings : TaskPtr → Links TaskPtr) (refcount : TaskPtr → Nat)

def runqueueInit : Runqueue := ⟨none, none, 0⟩

def runqueueRemove (self : Runqueue) (t : TaskPtr) (siblings : TaskPtr → Links TaskPtr) :
    Runqueue × (TaskPtr → Links TaskPtr) :=
  ({ head := if (siblings t).prev = none then (siblings t).next else self.head
     tail := if (siblings t).next = none then (siblings t).prev else self.tail
     count := self.count - 1 },
   update (bypass siblings t) t ⟨none, none⟩)

/-- `t` is unlinked, and `task_deinit(t); deallocate(…, t, …)` zeroes its record. -/
def RqSys.free (s : RqSys) (t : TaskPtr) : RqSys :=
  let r := cleanupRemove s.queue t s.siblings
  { s with queue := r.1, siblings := update r.2 t ⟨none, none⟩, freed := s.freed ++ [t] }

/-- The loop of `scheduler_cleanup`, over at most `fuel` tasks. -/
def schedulerCleanup : (fuel : Nat) → Option TaskPtr → RqSys → Option RqSys
  | _, none, s => some s
  | 0, some _, _ => none
  | fuel + 1, some t, s =>
      let next := (s.siblings t).next
      schedulerCleanup fuel next (if s.refcount t = 0 then s.free t else s)

def rqStep (s : RqSys) : RqEvent → Option RqSys
  | .enqueue t =>
      let r := runqueueEnqueue s.queue t s.siblings
      some { s with queue := r.1, siblings := r.2 }
  | .dequeue =>
      let r := runqueueDequeue s.queue s.siblings
      some { s with queue := r.2.1, siblings := r.2.2, returned := s.returned ++ [r.1] }
  | .remove t =>
      let r := runqueueRemove s.queue t s.siblings
      some { s with queue := r.1, siblings := r.2 }
  | .cleanup => schedulerCleanup s.queue.count s.queue.head s
  | .others siblings refcount => some { s with siblings, refcount }

/-- A task that is enqueued is not in the queue, one that is removed is; other code leaves the links
    of the members alone. -/
def RqLegal (s : RqSys) : RqEvent → Prop
  | .enqueue t => ¬ Reaches s.siblings t s.queue.head
  | .remove t => Reaches s.siblings t s.queue.head
  | .others siblings _ => ∀ t, Reaches s.siblings t s.queue.head → siblings t = s.siblings t
  | _ => True

/-- `runqueue_init`, whatever the links and counters are. -/
def rqInit (siblings : TaskPtr → Links TaskPtr) (refcount : TaskPtr → Nat) : RqSys :=
  { queue := runqueueInit, siblings, refcount, returned := [], freed := [] }

/-! ## 2. What it is for -/

structure RqSpec where
  queue : List TaskPtr
  refcount : TaskPtr → Nat
  returned : List (Option TaskPtr)
  freed : List TaskPtr

def RqSpec.step (a : RqSpec) : RqEvent → RqSpec
  | .enqueue t => { a with queue := a.queue ++ [t] }
  | .dequeue => { a with queue := a.queue.tail, returned := a.returned ++ [a.queue.head?] }
  | .remove t => { a with queue := a.queue.erase t }
  | .cleanup =>
      { a with
        queue := a.queue.filter fun t => a.refcount t ≠ 0
        freed := a.freed ++ a.queue.filter fun t => a.refcount t = 0 }
  | .others _ refcount => { a with refcount }

def RqSpec.empty (refcount : TaskPtr → Nat) : RqSpec := ⟨[], refcount, [], []⟩

/-- **The queue spells the list**, from its head along `next` and from its tail along `prev`. -/
structure RqFollows (s : RqSys) (a : RqSpec) : Prop where
  forward : Lib.Follows s.siblings s.queue.head a.queue
  backward : Lib.Follows (turned s.siblings) s.queue.tail a.queue.reverse
  nodup : a.queue.Nodup
  count : s.queue.count = a.queue.length
  refcount : s.refcount = a.refcount
  returned : s.returned = a.returned
  freed : s.freed = a.freed

/-! ## 3. The invariant -/

structure RqInv (s : RqSys) (a : RqSpec) : Prop where
  chain : DList s.siblings s.queue.head s.queue.tail a.queue
  count : s.queue.count = a.queue.length
  refcount : s.refcount = a.refcount
  returned : s.returned = a.returned
  freed : s.freed = a.freed

section Inv

variable {s s' : RqSys} {a : RqSpec} {t : TaskPtr} {l₁ l₂ : List TaskPtr}

theorem rqInv_init (siblings : TaskPtr → Links TaskPtr) (refcount : TaskPtr → Nat) :
    RqInv (rqInit siblings refcount) (RqSpec.empty refcount) :=
  ⟨dlist_nil, rfl, rfl, rfl, rfl⟩

theorem follows_of_rqInv (h : RqInv s a) : RqFollows s a := by
  have hd := h.chain
  refine ⟨?_, ?_, hd.nodup, h.count, h.refcount, h.returned, h.freed⟩
  · rw [hd.head]
    exact strung_follows hd.strung
  · rw [hd.tail, ← List.head?_reverse]
    exact strung_follows (strung_turned hd.strung)

theorem rqReaches_iff (h : RqInv s a) : Reaches s.siblings t s.queue.head ↔ t ∈ a.queue :=
  dlist_reaches h.chain

/-- A member is unlinked, and its links are cleared. -/
theorem dlist_unlinked {queue : Runqueue} {siblings : TaskPtr → Links TaskPtr}
    (hd : DList siblings queue.head queue.tail (l₁ ++ t :: l₂)) :
    DList (update (bypass siblings t) t ⟨none, none⟩)
      (if (siblings t).prev = none then (siblings t).next else queue.head)
      (if (siblings t).next = none then (siblings t).prev else queue.tail) (l₁ ++ l₂) :=
  dlist_update (dlist_bypass hd) (List.nodup_cons.mp (List.nodup_middle.mp hd.nodup)).1 _

theorem rqInv_enqueue (h : RqInv s a) (ht : t ∉ a.queue) (hs : rqStep s (.enqueue t) = some s') :
    RqInv s' (a.step (.enqueue t)) := by
  cases hs
  refine ⟨dlist_append h.chain ht, ?_, h.refcount, h.returned, h.freed⟩
  show s.queue.count + 1 = (a.queue ++ [t]).length
  rw [h.count, List.length_append, List.length_singleton]

theorem rqInv_dequeue (h : RqInv s a) (hs : rqStep s .dequeue = some s') :
    RqInv s' (a.step .dequeue) := by
  have hd := h.chain
  cases hhead : s.queue.head with
  | none =>
      rw [hhead] at hd
      have hr : runqueueDequeue s.queue s.siblings = (none, s.queue, s.siblings) := by
        unfold runqueueDequeue
        rw [hhead]
      have hnil : a.queue = [] := dlist_head_none hd
      unfold rqStep at hs
      rw [hr] at hs
      cases hs
      show RqInv _ { a with queue := a.queue.tail, returned := a.returned ++ [a.queue.head?] }
      rw [hnil]
      refine ⟨?_, ?_, h.refcount, ?_, h.freed⟩
      · show DList s.siblings s.queue.head s.queue.tail []
        rw [← hnil]
        exact h.chain
      · show s.queue.count = 0
        rw [h.count, hnil]
        rfl
      · show s.returned ++ [none] = a.returned ++ [none]
        rw [h.returned]
  | some t =>
      obtain ⟨l, hl⟩ := dlist_head_some (hhead ▸ hd)
      obtain ⟨hprev, hr⟩ := runqueueDequeue_some hd hhead
      have hd₀ : DList s.siblings s.queue.head s.queue.tail ([] ++ t :: l) := hl ▸ hd
      have hout := dlist_unlinked hd₀
      rw [hprev, if_pos rfl] at hout
      unfold rqStep at hs
      rw [hr] at hs
      cases hs
      show RqInv _ { a with queue := a.queue.tail, returned := a.returned ++ [a.queue.head?] }
      rw [hl]
      refine ⟨hout, ?_, h.refcount, ?_, h.freed⟩
      · show s.queue.count - 1 = l.length
        rw [h.count, hl]
        rfl
      · show s.returned ++ [some t] = a.returned ++ [some t]
        rw [h.returned]

theorem rqInv_remove (h : RqInv s a) (ht : t ∈ a.queue) (hs : rqStep s (.remove t) = some s') :
    RqInv s' (a.step (.remove t)) := by
  have hd := h.chain
  obtain ⟨l₁, l₂, hl⟩ := List.append_of_mem ht
  rw [hl] at hd
  have hnot : t ∉ l₁ := fun hin =>
    (List.nodup_append.mp hd.nodup).2.2 t hin t List.mem_cons_self rfl
  have herase : a.queue.erase t = l₁ ++ l₂ := by
    rw [hl, List.erase_append_right _ hnot, List.erase_cons_head]
  cases hs
  show RqInv _ { a with queue := a.queue.erase t }
  rw [herase]
  refine ⟨dlist_unlinked hd, ?_, h.refcount, h.returned, h.freed⟩
  show s.queue.count - 1 = (l₁ ++ l₂).length
  rw [h.count, hl, List.length_append, List.length_append, List.length_cons]
  omega

/-- **One pass of `scheduler_cleanup`.** The members before the place of the pass stay as they are;
    of those from there on, the ones without references are taken out and freed. -/
theorem rqInv_cleanup {fuel : Nat} (h : RqInv s { a with queue := l₁ ++ l₂ })
    (hfuel : l₂.length ≤ fuel) : ∃ s', schedulerCleanup fuel l₂.head? s = some s' ∧
      RqInv s' { a with
        queue := l₁ ++ l₂.filter fun t => a.refcount t ≠ 0
        freed := a.freed ++ l₂.filter fun t => a.refcount t = 0 } := by
  induction l₂ generalizing s a l₁ fuel with
  | nil =>
      refine ⟨s, by cases fuel <;> rfl, ?_⟩
      rw [List.append_nil] at h
      rw [List.filter_nil, List.filter_nil, List.append_nil, List.append_nil]
      exact h
  | cons t l ih =>
      obtain ⟨fuel, rfl⟩ : ∃ k, fuel = k + 1 := ⟨fuel - 1, by rw [List.length_cons] at hfuel; omega⟩
      have hlen : l.length ≤ fuel := Nat.le_of_succ_le_succ hfuel
      have hd : DList s.siblings s.queue.head s.queue.tail (l₁ ++ t :: l) := h.chain
      have hrefs : s.refcount t = a.refcount t := congrFun h.refcount t
      rw [List.head?_cons, schedulerCleanup]
      rw [dlist_next hd, hrefs]
      by_cases hzero : a.refcount t = 0
      · have hfree : RqInv (s.free t)
            { { a with freed := a.freed ++ [t] } with queue := l₁ ++ l } := by
          refine ⟨dlist_unlinked hd, ?_, h.refcount, h.returned, ?_⟩
          · show s.queue.count - 1 = (l₁ ++ l).length
            rw [h.count]
            show (l₁ ++ t :: l).length - 1 = _
            rw [List.length_append, List.length_append, List.length_cons]
            omega
          · show s.freed ++ [t] = a.freed ++ [t]
            rw [h.freed]
        rw [if_pos hzero, List.filter_cons_of_neg (by simpa using hzero),
          List.filter_cons_of_pos (by simpa using hzero), List.append_cons a.freed]
        exact ih hfree hlen
      · have hkeep : RqInv s { a with queue := (l₁ ++ [t]) ++ l } := by
          rw [List.append_assoc]
          exact h
        rw [if_neg hzero, List.filter_cons_of_pos (by simpa using hzero),
          List.filter_cons_of_neg (by simpa using hzero), List.append_cons l₁]
        exact ih hkeep hlen

/-- **Every call can be made, and is the call of the list.** -/
theorem rqStep_some (h : RqInv s a) {e : RqEvent} (hlegal : RqLegal s e) :
    ∃ s', rqStep s e = some s' ∧ RqInv s' (a.step e) := by
  cases e with
  | enqueue t => exact ⟨_, rfl, rqInv_enqueue h (fun ht => hlegal ((rqReaches_iff h).mpr ht)) rfl⟩
  | dequeue => exact ⟨_, rfl, rqInv_dequeue h rfl⟩
  | remove t => exact ⟨_, rfl, rqInv_remove h ((rqReaches_iff h).mp hlegal) rfl⟩
  | cleanup =>
      have h₀ : RqInv s { a with queue := [] ++ a.queue } := h
      obtain ⟨s', hs, h'⟩ := rqInv_cleanup h₀ (Nat.le_of_eq h.count.symm)
      rw [← h.chain.head] at hs
      exact ⟨s', hs, h'⟩
  | others siblings refcount =>
      refine ⟨_, rfl, dlist_congr h.chain fun t ht => ?_, h.count, rfl, h.returned, h.freed⟩
      exact hlegal t ((rqReaches_iff h).mpr ht)

theorem rqInv_step (h : RqInv s a) {e : RqEvent} (hlegal : RqLegal s e)
    (hs : rqStep s e = some s') : RqInv s' (a.step e) := by
  obtain ⟨s'', hs', h'⟩ := rqStep_some h hlegal
  rw [hs] at hs'
  obtain rfl := Option.some.inj hs'
  exact h'

end Inv

/-- **A run queue is a list**: in every run its links spell the list from both ends, its counter is
    the length, the tasks it returned and freed are those of the list, and the next call returns. -/
theorem runqueue_refines {siblings : TaskPtr → Links TaskPtr} {refcount : TaskPtr → Nat}
    {es : List RqEvent} {s : RqSys} (hrun : Runs rqStep RqLegal (rqInit siblings refcount) es s) :
    RqFollows s (es.foldl RqSpec.step (RqSpec.empty refcount)) ∧
      ∀ e, RqLegal s e → ∃ s', rqStep s e = some s' := by
  have h : RqInv s (es.foldl RqSpec.step (RqSpec.empty refcount)) :=
    runs_simulate RqInv (rqInv_init siblings refcount)
      (fun _ _ _ _ hi hlegal hs => rqInv_step hi hlegal hs) hrun
  refine ⟨follows_of_rqInv h, fun e hlegal => ?_⟩
  obtain ⟨s', hs, -⟩ := rqStep_some h hlegal
  exact ⟨s', hs⟩

/-- Of three tasks the second has no reference: a pass frees it, and the first comes out first. -/
theorem runqueue_refines_three : ∃ s : RqSys, s.queue.count = 1 ∧ s.freed = [2] ∧
    s.returned = [some 1] ∧ Lib.Follows s.siblings s.queue.head [3] := by
  have hrun : ∃ s, Runs rqStep RqLegal
      (rqInit (fun _ => ⟨none, none⟩) fun t => if t = 2 then 0 else 1)
      [.enqueue 1, .enqueue 2, .enqueue 3, .cleanup, .dequeue] s := by
    refine ⟨_, .step (.step (.step (.step (.step .start ?_ rfl) ?_ rfl) ?_ rfl) True.intro rfl)
      True.intro rfl⟩
    · intro h
      cases h
    · intro h
      rcases h with _ | h
      cases h
    · intro h
      rcases h with _ | h
      rcases h with _ | h
      cases h
  obtain ⟨s, hrun⟩ := hrun
  obtain ⟨hf, -⟩ := runqueue_refines hrun
  exact ⟨s, hf.count, hf.freed, hf.returned, hf.forward⟩

end Slightx
