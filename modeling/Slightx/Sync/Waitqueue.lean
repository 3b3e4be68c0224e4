/-
  File:      Slightx/Sync/Waitqueue.lean
  Subject:   One wait queue, used by several processors at once.

  Source: klibc/sync/waitqueue.c.

  A section under the lock of the queue is one step. `waitqueue_wake_one` wakes the waiter it popped
  after its section; `waitqueue_wake_all` takes the chain in its section and walks it without the
  lock, one item a step. The items and their links are those of `Proc/Scheduler.lean`: an item is
  named by a number.

  * `WqSpec` -- what the queue is for: the items that wait in the order they came, and for each
    processor those it has taken off and not woken yet;
  * `follows_spec` -- the queue follows `WqSpec` in every run that deletes no item from under the
    walk of a `waitqueue_wake_all`;
  * `del_under_walk` -- and not in others
-/
import Slightx.Lib.Machine
import Slightx.Proc.Scheduler

namespace Slightx

open Lib Function

/-- A `waitqueue_item *`. -/
abbrev ItemPtr := TaskPtr

/-! ## 1. Steps -/

/-- What a processor is in the middle of: the item `waitqueue_wake_one` popped, or the rest of the
    walk of `waitqueue_wake_all`. -/
inductive WakePhase where
  | off
  | one (entry : Option ItemPtr)
  | all (entry : Option ItemPtr)
  deriving DecidableEq

structure WqSys (n : Nat) where
  wq : Waitqueue
  siblings : ItemPtr → Links ItemPtr
  phase : Fin n → WakePhase

variable {n : Nat}

/-- The section of `waitqueue_wake_one`. -/
def waitqueueWakeOne (self : Waitqueue) (siblings : ItemPtr → Links ItemPtr) :
    Option ItemPtr × Waitqueue × (ItemPtr → Links ItemPtr) :=
  match self.head with
  | none => (none, self, siblings)
  | some entry =>
      let head := (siblings entry).next
      let siblings₁ := match head with
        | some h => update siblings h { siblings h with prev := none }
        | none => siblings
      (some entry, { head, tail := if head = none then none else self.tail },
       update siblings₁ entry ⟨none, none⟩)

/-- What happens on a processor: one of the calls, or the next part of a call that wakes. -/
inductive WqEvent (n : Nat) where
  | add (c : Fin n) (entry : ItemPtr)
  | del (c : Fin n) (entry : ItemPtr)
  | wakeOne (c : Fin n)
  | wakeAll (c : Fin n)
  | wake (c : Fin n)
  deriving DecidableEq

/-- The rest of a call that wakes: the callback of `waitqueue_wake_one`, or one round of the loop of
    `waitqueue_wake_all`. -/
def wakeStep (s : WqSys n) (c : Fin n) : Option (WqSys n) :=
  match s.phase c with
  | .off => none
  | .one _ => some { s with phase := update s.phase c .off }
  | .all none => some { s with phase := update s.phase c .off }
  | .all (some entry) =>
      some { s with
        siblings := update s.siblings entry ⟨none, none⟩
        phase := update s.phase c (.all (s.siblings entry).next) }

def wqStep (s : WqSys n) : WqEvent n → Option (WqSys n)
  | .add c entry =>
      if s.phase c = .off then
        (waitqueueAdd s.wq entry s.siblings).map fun r => { s with wq := r.1, siblings := r.2 }
      else none
  | .del c entry =>
      if s.phase c = .off then
        let r := waitqueueDel s.wq entry s.siblings
        some { s with wq := r.1, siblings := r.2 }
      else none
  | .wakeOne c =>
      if s.phase c = .off then
        let r := waitqueueWakeOne s.wq s.siblings
        some { wq := r.2.1, siblings := r.2.2, phase := update s.phase c (.one r.1) }
      else none
  | .wakeAll c =>
      if s.phase c = .off then
        some { s with wq := ⟨none, none⟩, phase := update s.phase c (.all s.wq.head) }
      else none
  | .wake c => wakeStep s c

/-- After `waitqueue_init`, with items after `waitqueue_item_init`. -/
def wqInit (n : Nat) : WqSys n :=
  { wq := ⟨none, none⟩, siblings := fun _ => ⟨none, none⟩, phase := fun _ => .off }

/-! ## 2. The queue by itself -/

/-- The queue is the list `l`, and items outside it are in no queue. -/
structure QueueIs (wq : Waitqueue) (siblings : ItemPtr → Links ItemPtr) (l : List ItemPtr) : Prop where
  chain : DList siblings wq.head wq.tail l
  clear : ∀ x, x ∉ l → siblings x = ⟨none, none⟩

section Queue

variable {wq : Waitqueue} {siblings : ItemPtr → Links ItemPtr} {l m : List ItemPtr} {x e : ItemPtr}

theorem dlist_threads (hd : DList siblings wq.head wq.tail l) :
    Threads siblings wq.head wq.tail (· ∈ l) l.length :=
  ⟨l, hd, rfl, fun _ => Iff.rfl⟩

theorem queueIs_init : QueueIs ⟨none, none⟩ (fun _ => ⟨none, none⟩) [] :=
  ⟨dlist_nil, fun _ _ => rfl⟩

/-- **An item is added at the end.** -/
theorem queueIs_add (h : QueueIs wq siblings l) (hx : x ∉ l) :
    ∃ r, waitqueueAdd wq x siblings = some r ∧ QueueIs r.1 r.2 (l ++ [x]) := by
  obtain ⟨r, hr⟩ : ∃ r, waitqueueAdd wq x siblings = some r := by
    unfold waitqueueAdd
    rw [if_pos (h.clear x hx)]
    cases wq.tail with
    | none => exact ⟨_, rfl⟩
    | some _ => exact ⟨_, rfl⟩
  obtain ⟨hwq, hlinks⟩ := waitqueueAdd_some (dlist_threads h.chain) hr
  refine ⟨r, hr, ?_, fun y hy => ?_⟩
  · rw [hwq, hlinks]
    exact dlist_append h.chain hx
  · rw [List.mem_append, not_or, List.mem_singleton] at hy
    rw [hlinks, linkBack_of_notMem h.chain hy.1 hy.2]
    exact h.clear y hy.1

theorem waitqueueWakeOne_nil (hd : DList siblings wq.head wq.tail []) :
    waitqueueWakeOne wq siblings = (none, wq, siblings) := by
  unfold waitqueueWakeOne
  rw [hd.head]
  rfl

/-- The first item is popped. -/
theorem waitqueueWakeOne_cons (hd : DList siblings wq.head wq.tail (e :: m)) :
    ∃ wq', waitqueueWakeOne wq siblings =
        (some e, wq', update (bypass siblings e) e ⟨none, none⟩) ∧
      DList (update (bypass siblings e) e ⟨none, none⟩) wq'.head wq'.tail m := by
  have hd₀ : DList siblings wq.head wq.tail ([] ++ e :: m) := hd
  have hprev : (siblings e).prev = none := (dlist_at hd₀).1
  have hby := dlist_bypass hd₀
  rw [hprev, if_pos rfl] at hby
  refine ⟨⟨(siblings e).next, if (siblings e).next = none then none else wq.tail⟩, ?_,
    dlist_update hby (List.nodup_cons.mp hd.nodup).1 _⟩
  unfold waitqueueWakeOne bypass
  rw [hd.head]
  dsimp only [List.head?_cons]
  rw [hprev]
  cases (siblings e).next <;> rfl

/-- Popping leaves the links of items outside the queue. -/
theorem pop_off (hd : DList siblings wq.head wq.tail (e :: m)) (hx : x ∉ e :: m) :
    update (bypass siblings e) e ⟨none, none⟩ x = siblings x := by
  have hd₀ : DList siblings wq.head wq.tail ([] ++ e :: m) := hd
  rw [List.mem_cons, not_or] at hx
  exact (update_of_ne hx.1 _ _).trans (bypass_of_notMem hd₀ hx.2)

/-- **An item is taken off the front.** -/
theorem queueIs_wakeOne (h : QueueIs wq siblings (e :: m)) :
    ∃ wq', waitqueueWakeOne wq siblings =
        (some e, wq', update (bypass siblings e) e ⟨none, none⟩) ∧
      QueueIs wq' (update (bypass siblings e) e ⟨none, none⟩) m := by
  obtain ⟨wq', hpop, hd⟩ := waitqueueWakeOne_cons h.chain
  refine ⟨wq', hpop, hd, fun x hx => ?_⟩
  by_cases hxe : x = e
  · rw [hxe]
    exact update_self _ _ _
  · have hout : x ∉ e :: m := by
      rw [List.mem_cons, not_or]
      exact ⟨hxe, hx⟩
    rw [pop_off h.chain hout]
    exact h.clear x hout

end Queue

/-! ## 3. What the queue is for -/

/-- The items that wait, in the order they came; and the items each processor has taken off to wake,
    in the order it wakes them. -/
structure WqSpec (n : Nat) where
  queue : List ItemPtr
  due : Fin n → List ItemPtr

def WqSpec.empty (n : Nat) : WqSpec n := ⟨[], fun _ => []⟩

/-- An item that was deleted waits no more; one that is the last to be woken by its processor is
    woken all the same. -/
def WqSpec.step (a : WqSpec n) : WqEvent n → WqSpec n
  | .add _ entry => { a with queue := a.queue ++ [entry] }
  | .del _ entry =>
      { queue := a.queue.erase entry
        due := fun c => if (a.due c).length < 2 then a.due c else (a.due c).erase entry }
  | .wakeOne c => { queue := a.queue.tail, due := update a.due c a.queue.head?.toList }
  | .wakeAll c => { queue := [], due := update a.due c a.queue }
  | .wake c => { a with due := update a.due c (a.due c).tail }

/-- The item the next `wake` on `c` wakes. -/
def WqSys.waking (s : WqSys n) (c : Fin n) : Option ItemPtr :=
  match s.phase c with
  | .off => none
  | .one entry => entry
  | .all entry => entry

/-- **The queue as `WqSpec` has it**: a chain of the items that wait, from the head to the tail, and
    each processor about to wake its next. -/
structure WqFollows (s : WqSys n) (a : WqSpec n) : Prop where
  chain : DList s.siblings s.wq.head s.wq.tail a.queue
  next : ∀ c, s.waking c = (a.due c).head?
  done : ∀ c, s.phase c = .off → a.due c = []

/-- The item is still to be walked by the `waitqueue_wake_all` on `c`. -/
def WqSys.Walks (s : WqSys n) (c : Fin n) (entry : ItemPtr) : Prop :=
  ∃ e, s.phase c = .all e ∧ Reaches s.siblings entry e

/-- An item that is added is in no queue, and under no walk; an item that is deleted is under no
    walk, or is all that is left of one, or stands between two others that are. -/
def NotUnderWalk (s : WqSys n) : WqEvent n → Prop
  | .add _ entry => ¬ Reaches s.siblings entry s.wq.head ∧ ∀ c, ¬ s.Walks c entry
  | .del _ entry => ∀ c, s.Walks c entry → s.siblings entry = ⟨none, none⟩ ∨
      ((s.siblings entry).next ≠ none ∧ ∃ p, (s.siblings entry).prev = some p ∧ s.Walks c p)
  | _ => True

/-! ## 4. The invariant -/

/-- What the walk on `c` still has to wake. -/
def WqSys.walk (s : WqSys n) (a : WqSpec n) (c : Fin n) : List ItemPtr :=
  match s.phase c with
  | .all _ => a.due c
  | _ => []

structure WqInv (s : WqSys n) (a : WqSpec n) : Prop where
  chain : DList s.siblings s.wq.head s.wq.tail a.queue
  off : ∀ c, s.phase c = .off → a.due c = []
  one : ∀ c e, s.phase c = .one e → a.due c = e.toList
  all : ∀ c e, s.phase c = .all e → e = (a.due c).head?
  /-- the walk goes along `next`; the `prev` of its first item is left over -/
  strung : ∀ c, ∃ p, Strung s.siblings p (s.walk a c) none ∧ ∀ b, p = some b → b ∉ s.walk a c
  nodup : ∀ c, (s.walk a c).Nodup
  queued : ∀ c x, x ∈ s.walk a c → x ∉ a.queue
  apart : ∀ c d x, c ≠ d → x ∈ s.walk a c → x ∉ s.walk a d
  clear : ∀ x, x ∉ a.queue → (∀ c, x ∉ s.walk a c) → s.siblings x = ⟨none, none⟩

section Inv

variable {s s' : WqSys n} {a : WqSpec n} {c : Fin n} {x : ItemPtr}

theorem wqInv_init : WqInv (wqInit n) (WqSpec.empty n) := by
  refine ⟨dlist_nil, fun _ _ => rfl, fun _ _ h => ?_, fun _ _ h => ?_, fun _ => ⟨none, True.intro, ?_⟩,
    fun _ => List.nodup_nil, fun _ _ h => ?_, fun _ _ _ _ h => ?_, fun _ _ _ => rfl⟩
  · cases h
  · cases h
  · intro _ h
    cases h
  · exact absurd h List.not_mem_nil
  · exact absurd h List.not_mem_nil

theorem follows_of_inv (h : WqInv s a) : WqFollows s a := by
  refine ⟨h.chain, fun c => ?_, h.off⟩
  unfold WqSys.waking
  cases hp : s.phase c with
  | off =>
      rw [h.off c hp]
      rfl
  | one e =>
      rw [h.one c e hp]
      cases e <;> rfl
  | all e => exact h.all c e hp

theorem walks_iff (h : WqInv s a) : s.Walks c x ↔ x ∈ s.walk a c := by
  obtain ⟨p, hs, -⟩ := h.strung c
  unfold WqSys.Walks
  cases hp : s.phase c with
  | off =>
      have hw : s.walk a c = [] := by unfold WqSys.walk; rw [hp]
      rw [hw]
      refine ⟨fun hx => ?_, fun hx => absurd hx List.not_mem_nil⟩
      obtain ⟨_, he, _⟩ := hx
      cases he
  | one e =>
      have hw : s.walk a c = [] := by unfold WqSys.walk; rw [hp]
      rw [hw]
      refine ⟨fun hx => ?_, fun hx => absurd hx List.not_mem_nil⟩
      obtain ⟨_, he, _⟩ := hx
      cases he
  | all e =>
      have hw : s.walk a c = a.due c := by unfold WqSys.walk; rw [hp]
      rw [hw] at hs ⊢
      rw [h.all c e hp]
      constructor
      · intro hx
        obtain ⟨e', he, hr⟩ := hx
        cases he
        exact (strung_reaches hs).mp hr
      · exact fun hx => ⟨_, rfl, (strung_reaches hs).mpr hx⟩

/-- The state has other links and another queue; the walks are those it had. -/
theorem wqInv_edit {wq : Waitqueue} {siblings : ItemPtr → Links ItemPtr} {queue : List ItemPtr}
    (h : WqInv s a) (hchain : DList siblings wq.head wq.tail queue)
    (hsame : ∀ c, ∀ x ∈ s.walk a c, siblings x = s.siblings x ∧ x ∉ queue)
    (hclear : ∀ x, x ∉ queue → (∀ c, x ∉ s.walk a c) → siblings x = ⟨none, none⟩) :
    WqInv { s with wq, siblings } { a with queue } := by
  refine ⟨hchain, h.off, h.one, h.all, fun c => ?_, h.nodup, fun c x hx => (hsame c x hx).2, h.apart,
    hclear⟩
  obtain ⟨p, hs, hp⟩ := h.strung c
  exact ⟨p, strung_congr hs fun x hx => (hsame c x hx).1, hp⟩

/-- **`waitqueue_add`.** -/
theorem inv_wqAdd (h : WqInv s a) (hx : ¬ Reaches s.siblings x s.wq.head)
    (hwalk : ∀ c, ¬ s.Walks c x) {r : Waitqueue × (ItemPtr → Links ItemPtr)}
    (hr : waitqueueAdd s.wq x s.siblings = some r) :
    WqInv { s with wq := r.1, siblings := r.2 } { a with queue := a.queue ++ [x] } := by
  obtain ⟨hwq, hlinks⟩ := waitqueueAdd_some (dlist_threads h.chain) hr
  rw [dlist_reaches h.chain] at hx
  rw [hwq, hlinks]
  refine wqInv_edit h (dlist_append h.chain hx) (fun c y hy => ⟨?_, fun hin => ?_⟩)
    fun y hy hnone => ?_
  · refine linkBack_of_notMem h.chain (h.queued c y hy) fun he => hwalk c ?_
    rw [walks_iff h, ← he]
    exact hy
  · rcases List.mem_append.mp hin with hin | hin
    · exact h.queued c y hy hin
    · refine hwalk c ((walks_iff h).mpr ?_)
      rw [← List.mem_singleton.mp hin]
      exact hy
  · rw [List.mem_append, not_or, List.mem_singleton] at hy
    rw [linkBack_of_notMem h.chain hy.1 hy.2]
    exact h.clear y hy.1 hnone

/-- An item in no queue and under no walk: `waitqueue_del` leaves all as it is. -/
theorem waitqueueDel_clear (hx : s.siblings x = ⟨none, none⟩) (hhead : s.wq.head ≠ some x) :
    waitqueueDel s.wq x s.siblings = (s.wq, s.siblings) := by
  unfold waitqueueDel
  rw [hx]
  exact if_pos ⟨rfl, rfl, hhead⟩

/-- A walk is all the processor has to wake. -/
theorem walk_or (s : WqSys n) (a : WqSpec n) (c : Fin n) :
    s.walk a c = a.due c ∨ s.walk a c = [] := by
  unfold WqSys.walk
  split
  · exact Or.inl rfl
  · exact Or.inr rfl

theorem walk_mem (hx : x ∈ s.walk a c) : s.walk a c = a.due c :=
  (walk_or s a c).resolve_right fun h0 => by rw [h0] at hx; exact absurd hx List.not_mem_nil

/-- A processor that does not walk has at most one item to wake. -/
theorem due_short (h : WqInv s a) (hc : s.walk a c = []) : (a.due c).length < 2 := by
  cases hp : s.phase c with
  | off =>
      rw [h.off c hp]
      decide
  | one e =>
      rw [h.one c e hp]
      cases e with
      | none => exact Nat.zero_lt_two
      | some _ => exact Nat.one_lt_two
  | all e =>
      unfold WqSys.walk at hc
      rw [hp] at hc
      rw [show a.due c = [] from hc]
      decide

/-- **`waitqueue_del` of an item that waits.** -/
theorem inv_wqDel_queued (h : WqInv s a) (hx : x ∈ a.queue) :
    WqInv { s with wq := (waitqueueDel s.wq x s.siblings).1
                   siblings := (waitqueueDel s.wq x s.siblings).2 }
      { a with queue := a.queue.erase x } := by
  have hnd := h.chain.nodup
  obtain ⟨l₁, l₂, hl⟩ := List.append_of_mem hx
  have hd := h.chain
  rw [hl] at hd hnd
  have hmid := (List.nodup_cons.mp (List.nodup_middle.mp hnd)).1
  have hx₁ : x ∉ l₁ := fun hin => hmid (List.mem_append_left _ hin)
  have herase : a.queue.erase x = l₁ ++ l₂ := by
    rw [hl, List.erase_append_right _ hx₁, List.erase_cons_head]
  rw [waitqueueDel_mem (dlist_threads h.chain) hx, herase]
  refine wqInv_edit h (dlist_update (dlist_bypass hd) hmid _) (fun c y hy => ?_)
    fun y hy hnone => ?_
  · have hq := h.queued c y hy
    rw [hl, List.mem_append, List.mem_cons, not_or, not_or] at hq
    have hout : y ∉ l₁ ++ l₂ := fun hin =>
      (List.mem_append.mp hin).elim hq.1 hq.2.2
    exact ⟨(update_of_ne hq.2.1 _ _).trans (bypass_of_notMem hd hout), hout⟩
  · by_cases hyx : y = x
    · rw [hyx]
      exact update_self _ _ _
    · refine (update_of_ne hyx _ _).trans ((bypass_of_notMem hd hy).trans (h.clear y ?_ hnone))
      rw [hl, List.mem_append, List.mem_cons, not_or, not_or]
      rw [List.mem_append, not_or] at hy
      exact ⟨hy.1, hyx, hy.2⟩

/-- The walks, where one processor has other items to wake. -/
theorem walk_update (s : WqSys n) (a : WqSpec n) (c d : Fin n) (l : List ItemPtr) :
    s.walk { a with due := update a.due c l } d =
      if d = c then (match s.phase c with | .all _ => l | _ => []) else s.walk a d := by
  unfold WqSys.walk
  by_cases hd : d = c
  · subst hd
    rw [if_pos rfl]
    dsimp only
    rw [update_self]
  · rw [if_neg hd]
    dsimp only
    rw [update_of_ne hd]

/-- **`waitqueue_del` of an item between two others of a walk.** -/
theorem inv_wqDel_walked (h : WqInv s a) {l₁ l₂ : List ItemPtr}
    (hwalk : s.walk a c = l₁ ++ x :: l₂) (hl₁ : l₁ ≠ []) (hl₂ : l₂ ≠ []) :
    WqInv { s with wq := (waitqueueDel s.wq x s.siblings).1
                   siblings := (waitqueueDel s.wq x s.siblings).2 }
      { a with due := update a.due c (l₁ ++ l₂) } := by
  obtain ⟨p, hs, hp⟩ := h.strung c
  have hnd := h.nodup c
  rw [hwalk] at hs hp hnd
  have hmid := (List.nodup_cons.mp (List.nodup_middle.mp hnd)).1
  obtain ⟨e, hphase, hdue⟩ : ∃ e, s.phase c = .all e ∧ a.due c = l₁ ++ x :: l₂ := by
    unfold WqSys.walk at hwalk
    split at hwalk
    · rename_i e he
      exact ⟨e, he, hwalk⟩
    · exact absurd hwalk.symm (by simp)
  -- the neighbours of `x` are items of the walk
  obtain ⟨-, hprev, hnext, -⟩ := strung_append.mp hs
  obtain ⟨k, b, rfl⟩ := (List.eq_nil_or_concat l₁).resolve_left hl₁
  obtain ⟨d, m, rfl⟩ := List.exists_cons_of_ne_nil hl₂
  rw [List.concat_eq_append] at *
  have hprev : (s.siblings x).prev = some b := by
    rw [hprev, List.getLast?_append]
    rfl
  have hnext : (s.siblings x).next = some d := hnext
  have hdel : waitqueueDel s.wq x s.siblings =
      (s.wq, update (bypass s.siblings x) x ⟨none, none⟩) := by
    unfold waitqueueDel
    rw [hprev, hnext, if_neg (fun hall => by cases hall.1)]
    rfl
  have hoff : ∀ y, y ∉ s.walk a c → update (bypass s.siblings x) x ⟨none, none⟩ y = s.siblings y := by
    intro y hy
    rw [hwalk] at hy
    have hne : y ≠ x ∧ y ≠ b ∧ y ≠ d := by
      refine ⟨?_, ?_, ?_⟩
      all_goals intro he
      all_goals rw [he] at hy
      all_goals exact hy (by simp)
    refine (update_of_ne hne.1 _ _).trans (bypass_of_ne ?_ ?_)
    · rw [hprev]
      exact fun he => hne.2.1 (Option.some.inj he).symm
    · rw [hnext]
      exact fun he => hne.2.2 (Option.some.inj he).symm
  have hnew : ∀ c', WqSys.walk { s with wq := (waitqueueDel s.wq x s.siblings).1
                                        siblings := (waitqueueDel s.wq x s.siblings).2 }
      { a with due := update a.due c ((k ++ [b]) ++ d :: m) } c' =
        if c' = c then (k ++ [b]) ++ d :: m else s.walk a c' := by
    intro c'
    refine (walk_update s a c c' _).trans ?_
    rw [hphase]
  have hsub : ∀ y, y ∈ (k ++ [b]) ++ d :: m → y ∈ s.walk a c := by
    intro y hy
    rw [hwalk]
    simp only [List.mem_append, List.mem_cons] at hy ⊢
    tauto
  rw [hdel] at hnew ⊢
  refine ⟨dlist_congr h.chain fun y hy => hoff y fun hin => h.queued c y hin hy, fun c' he => ?_,
    fun c' e' he => ?_, fun c' e' he => ?_, fun c' => ?_, fun c' => ?_, fun c' y hy => ?_,
    fun c₁ c₂ y hne hy => ?_, fun y hy hnone => ?_⟩
  · have hne : c' ≠ c := fun hcc => by
      rw [hcc] at he
      exact absurd (hphase.symm.trans he) (by simp)
    exact (update_of_ne hne _ _).trans (h.off c' he)
  · have hne : c' ≠ c := fun hcc => by
      rw [hcc] at he
      exact absurd (hphase.symm.trans he) (by simp)
    exact (update_of_ne hne _ _).trans (h.one c' e' he)
  · by_cases hcc : c' = c
    · subst hcc
      show e' = (update a.due c' _ c').head?
      rw [update_self, h.all c' e' he, hdue]
      cases k <;> rfl
    · show e' = (update a.due c _ c').head?
      rw [update_of_ne hcc]
      exact h.all c' e' he
  · rw [hnew c']
    by_cases hcc : c' = c
    · rw [if_pos hcc]
      refine ⟨p, strung_update (strung_bypass hs hnd (fun h0 => ?_) fun h0 => ?_) hmid _,
        fun g hg hin => hp g hg ?_⟩
      · exact absurd h0 (by simp)
      · exact absurd h0 (by simp)
      · rw [← hwalk]
        exact hsub g hin
    · rw [if_neg hcc]
      obtain ⟨p', hs', hp'⟩ := h.strung c'
      exact ⟨p', strung_congr hs' fun y hy => hoff y (h.apart c' c y hcc hy), hp'⟩
  · rw [hnew c']
    split
    · exact (List.nodup_cons.mp (List.nodup_middle.mp hnd)).2
    · exact h.nodup c'
  · rw [hnew c'] at hy
    split at hy
    · exact h.queued c y (hsub y hy)
    · exact h.queued c' y hy
  · rw [hnew c₁] at hy
    rw [hnew c₂]
    split at hy
    · rename_i h₁
      rw [if_neg (fun h₂ => hne (h₁.trans h₂.symm))]
      exact h.apart c c₂ y (fun h₂ => hne (h₁.trans h₂)) (hsub y hy)
    · rename_i h₁
      split
      · rename_i h₂
        exact fun hin => h.apart c₁ c y h₁ hy (hsub y hin)
      · exact h.apart c₁ c₂ y hne hy
  · by_cases hyx : y = x
    · rw [hyx]
      exact update_self _ _ _
    · have hout : y ∉ s.walk a c := by
        have hc := hnone c
        rw [hnew c, if_pos rfl] at hc
        rw [hwalk]
        simp only [List.mem_append, List.mem_cons] at hc ⊢
        tauto
      refine (hoff y hout).trans (h.clear y hy fun c' => ?_)
      by_cases hcc : c' = c
      · rw [hcc]
        exact hout
      · have hc := hnone c'
        rw [hnew c', if_neg hcc] at hc
        exact hc

/-- Who deletes an item that is under no walk changes nothing that is due. -/
theorem due_kept (h : WqInv s a) (hx : ∀ c, x ∉ s.walk a c) :
    (fun c => if (a.due c).length < 2 then a.due c else (a.due c).erase x) = a.due := by
  funext c
  split
  · rfl
  · rename_i hlong
    refine List.erase_of_not_mem fun hin => ?_
    rcases walk_or s a c with hall | hnone
    · exact hx c (hall ▸ hin)
    · exact hlong (due_short h hnone)

/-- **`waitqueue_del`**, of an item it may delete. -/
theorem inv_wqDel (h : WqInv s a) (hclean : NotUnderWalk s (.del c x)) :
    WqInv { s with wq := (waitqueueDel s.wq x s.siblings).1
                   siblings := (waitqueueDel s.wq x s.siblings).2 } (a.step (.del c x)) := by
  unfold WqSpec.step
  by_cases hq : x ∈ a.queue
  · have hdue := due_kept h (x := x) fun d hd => h.queued d x hd hq
    dsimp only
    rw [hdue]
    exact inv_wqDel_queued h hq
  · have herase : a.queue.erase x = a.queue := List.erase_of_not_mem hq
    have hhead : s.wq.head ≠ some x := by
      intro he
      have hin := h.chain.head.symm.trans he
      exact hq (List.mem_of_mem_head? hin)
    dsimp only
    rw [herase]
    by_cases hwalk : ∃ d, x ∈ s.walk a d
    · obtain ⟨d, hd⟩ := hwalk
      obtain ⟨p, hs, -⟩ := h.strung d
      obtain ⟨l₁, l₂, hl⟩ := List.append_of_mem hd
      have hnd := h.nodup d
      rw [hl] at hs hnd
      obtain ⟨-, hprev, hnext, -⟩ := strung_append.mp hs
      have hmid := (List.nodup_cons.mp (List.nodup_middle.mp hnd)).1
      have hdue : a.due d = l₁ ++ x :: l₂ := (walk_mem hd).symm.trans hl
      -- the processors other than `d` have nothing of it
      have hother : ∀ c', c' ≠ d →
          (if (a.due c').length < 2 then a.due c' else (a.due c').erase x) = a.due c' := by
        intro c' hne
        split
        · rfl
        · rename_i hlong
          refine List.erase_of_not_mem fun hin => ?_
          rcases walk_or s a c' with hall | hnone
          · exact h.apart d c' x (Ne.symm hne) hd (hall ▸ hin)
          · exact hlong (due_short h hnone)
      rcases hclean d ((walks_iff h).mpr hd) with hnull | ⟨hn, b, hb, hwalks⟩
      · -- all that is left of the walk
        have hl₁ : l₁ = [] := by
          rw [hnull] at hprev
          cases hg : l₁.getLast? with
          | none => exact List.getLast?_eq_none_iff.mp hg
          | some g =>
              rw [hg] at hprev
              cases hprev
        have hl₂ : l₂ = [] := by
          rw [hnull] at hnext
          cases l₂ with
          | nil => rfl
          | cons g m => cases hnext
        have hsame : (fun c' => if (a.due c').length < 2 then a.due c' else (a.due c').erase x) =
            a.due := by
          funext c'
          by_cases hc : c' = d
          · rw [hc, hdue, hl₁, hl₂]
            rfl
          · exact hother c' hc
        rw [hsame, waitqueueDel_clear hnull hhead]
        exact h
      · have hl₂ : l₂ ≠ [] := by
          intro h0
          rw [h0] at hnext
          exact hn hnext
        have hl₁ : l₁ ≠ [] := by
          intro h0
          rw [h0] at hprev hl
          obtain ⟨p', hs', hp'⟩ := h.strung d
          rw [hl] at hs' hp'
          have hb' : p' = some b := hs'.1.symm.trans hb
          refine hp' b hb' ?_
          have hin := (walks_iff h).mp hwalks
          rw [hl] at hin
          exact hin
        have hnew : (fun c' => if (a.due c').length < 2 then a.due c' else (a.due c').erase x) =
            update a.due d (l₁ ++ l₂) := by
          funext c'
          by_cases hc : c' = d
          · rw [hc, update_self, hdue, if_neg, List.erase_append_right _
              (fun hin => hmid (List.mem_append_left _ hin)), List.erase_cons_head]
            obtain ⟨g, k, rfl⟩ := List.exists_cons_of_ne_nil hl₁
            rw [List.length_append, List.length_cons, List.length_cons]
            omega
          · rw [update_of_ne hc]
            exact hother c' hc
        rw [hnew]
        exact inv_wqDel_walked h hl hl₁ hl₂
    · have hnone : ∀ d, x ∉ s.walk a d := fun d hd => hwalk ⟨d, hd⟩
      rw [due_kept h hnone, waitqueueDel_clear (h.clear x hq hnone) hhead]
      exact h

/-- A phase, and the items it has to wake. -/
inductive PhaseOk (siblings : ItemPtr → Links ItemPtr) : WakePhase → List ItemPtr → Prop where
  | off : PhaseOk siblings .off []
  | one (e : Option ItemPtr) : PhaseOk siblings (.one e) e.toList
  | all {l : List ItemPtr} {p : Option ItemPtr} (hs : Strung siblings p l none)
      (hp : ∀ b, p = some b → b ∉ l) (hnd : l.Nodup) : PhaseOk siblings (.all l.head?) l

/-- **One processor gets another phase**, and the queue is edited. -/
theorem wqInv_phase {wq : Waitqueue} {siblings : ItemPtr → Links ItemPtr} {queue l : List ItemPtr}
    {phase : WakePhase} (h : WqInv s a) (hchain : DList siblings wq.head wq.tail queue)
    (hphase : PhaseOk siblings phase l)
    (hl : phase = .all l.head? → ∀ x ∈ l, x ∉ queue ∧ ∀ d, d ≠ c → x ∉ s.walk a d)
    (hsame : ∀ d, d ≠ c → ∀ x ∈ s.walk a d, siblings x = s.siblings x ∧ x ∉ queue)
    (hclear : ∀ x, x ∉ queue → (∀ d, d ≠ c → x ∉ s.walk a d) →
      (phase = .all l.head? → x ∉ l) → siblings x = ⟨none, none⟩) :
    WqInv { wq, siblings, phase := update s.phase c phase }
      { queue, due := update a.due c l } := by
  have hother : ∀ d, d ≠ c → WqSys.walk { wq, siblings, phase := update s.phase c phase }
      { queue, due := update a.due c l } d = s.walk a d := by
    intro d hd
    unfold WqSys.walk
    dsimp only
    rw [update_of_ne hd, update_of_ne hd]
  have hself : WqSys.walk { wq, siblings, phase := update s.phase c phase }
      { queue, due := update a.due c l } c = if phase = .all l.head? then l else [] := by
    unfold WqSys.walk
    dsimp only
    rw [update_self, update_self]
    cases hphase with
    | off => rfl
    | one e => rfl
    | all hs hp hnd => rw [if_pos rfl]
  have hmem : ∀ x, x ∈ WqSys.walk { wq, siblings, phase := update s.phase c phase }
      { queue, due := update a.due c l } c ↔ phase = .all l.head? ∧ x ∈ l := by
    intro x
    rw [hself]
    split
    · rename_i hall
      exact ⟨fun hx => ⟨hall, hx⟩, fun hx => hx.2⟩
    · rename_i hall
      exact ⟨fun hx => absurd hx List.not_mem_nil, fun hx => absurd hx.1 hall⟩
  refine ⟨hchain, fun d hd => ?_, fun d e hd => ?_, fun d e hd => ?_, fun d => ?_, fun d => ?_,
    fun d x hx => ?_, fun d d' x hne hx => ?_, fun x hx hnone => ?_⟩
  · by_cases hdc : d = c
    · subst hdc
      change update s.phase d phase d = .off at hd
      rw [update_self] at hd
      show update a.due d l d = []
      rw [update_self]
      cases hphase with
      | off => rfl
      | one e => cases hd
      | all hs hp hnd => cases hd
    · change update s.phase c phase d = .off at hd
      rw [update_of_ne hdc] at hd
      exact (update_of_ne hdc _ _).trans (h.off d hd)
  · by_cases hdc : d = c
    · subst hdc
      change update s.phase d phase d = .one e at hd
      rw [update_self] at hd
      show update a.due d l d = e.toList
      rw [update_self]
      cases hphase with
      | off => cases hd
      | one e' =>
          cases hd
          rfl
      | all hs hp hnd => cases hd
    · change update s.phase c phase d = .one e at hd
      rw [update_of_ne hdc] at hd
      exact (update_of_ne hdc _ _).trans (h.one d e hd)
  · by_cases hdc : d = c
    · subst hdc
      change update s.phase d phase d = .all e at hd
      rw [update_self] at hd
      show e = (update a.due d l d).head?
      rw [update_self]
      cases hphase with
      | off => cases hd
      | one e' => cases hd
      | all hs hp hnd =>
          cases hd
          rfl
    · change update s.phase c phase d = .all e at hd
      rw [update_of_ne hdc] at hd
      show e = (update a.due c l d).head?
      rw [update_of_ne hdc]
      exact h.all d e hd
  · by_cases hdc : d = c
    · subst hdc
      rw [hself]
      cases hphase with
      | off => exact ⟨none, True.intro, fun b hb => by cases hb⟩
      | one e => exact ⟨none, True.intro, fun b hb => by cases hb⟩
      | all hs hp hnd =>
          rw [if_pos rfl]
          exact ⟨_, hs, hp⟩
    · rw [hother d hdc]
      obtain ⟨p, hs, hp⟩ := h.strung d
      exact ⟨p, strung_congr hs fun x hx => (hsame d hdc x hx).1, hp⟩
  · by_cases hdc : d = c
    · subst hdc
      rw [hself]
      cases hphase with
      | off => exact List.nodup_nil
      | one e => exact List.nodup_nil
      | all hs hp hnd =>
          rw [if_pos rfl]
          exact hnd
    · rw [hother d hdc]
      exact h.nodup d
  · by_cases hdc : d = c
    · subst hdc
      obtain ⟨hall, hin⟩ := (hmem x).mp hx
      exact (hl hall x hin).1
    · rw [hother d hdc] at hx
      exact (hsame d hdc x hx).2
  · by_cases hdc : d = c
    · subst hdc
      obtain ⟨hall, hin⟩ := (hmem x).mp hx
      rw [hother d' (Ne.symm hne)]
      exact (hl hall x hin).2 d' (Ne.symm hne)
    · rw [hother d hdc] at hx
      by_cases hdc' : d' = c
      · subst hdc'
        rw [hmem]
        exact fun hin => (hl hin.1 x hin.2).2 d hdc hx
      · rw [hother d' hdc']
        exact h.apart d d' x hne hx
  · refine hclear x hx (fun d hdc => ?_) fun hall hin => hnone c ((hmem x).mpr ⟨hall, hin⟩)
    rw [← hother d hdc]
    exact hnone d

/-- **The section of `waitqueue_wake_one`.** -/
theorem inv_wqWakeOne (h : WqInv s a) (hoff : s.phase c = .off) :
    WqInv { wq := (waitqueueWakeOne s.wq s.siblings).2.1
            siblings := (waitqueueWakeOne s.wq s.siblings).2.2
            phase := update s.phase c (.one (waitqueueWakeOne s.wq s.siblings).1) }
      (a.step (.wakeOne c)) := by
  have hwalk : s.walk a c = [] := by unfold WqSys.walk; rw [hoff]
  have hnone : ∀ x, (∀ d, d ≠ c → x ∉ s.walk a d) → ∀ d, x ∉ s.walk a d := by
    intro x hx d
    by_cases hdc : d = c
    · rw [hdc, hwalk]
      exact List.not_mem_nil
    · exact hx d hdc
  show WqInv _ { queue := a.queue.tail, due := update a.due c a.queue.head?.toList }
  cases hq : a.queue with
  | nil =>
      have hd := h.chain
      rw [hq] at hd
      rw [waitqueueWakeOne_nil hd]
      refine wqInv_phase h hd (.one none) (fun hall => by cases hall)
        (fun d _ x hx => ⟨rfl, List.not_mem_nil⟩) fun x hx hout _ => ?_
      exact h.clear x (by rw [hq]; exact hx) (hnone x hout)
  | cons e m =>
      have hd := h.chain
      rw [hq] at hd
      obtain ⟨wq', hpop, hd'⟩ := waitqueueWakeOne_cons hd
      rw [hpop]
      refine wqInv_phase h hd' (.one (some e)) (fun hall => by cases hall)
        (fun d hdc x hx => ?_) fun x hx hout _ => ?_
      · have hxq := h.queued d x hx
        rw [hq] at hxq
        exact ⟨pop_off hd hxq, fun hin => hxq (List.mem_cons_of_mem _ hin)⟩
      · by_cases hxe : x = e
        · rw [hxe]
          exact update_self _ _ _
        · have hxq : x ∉ e :: m := by
            rw [List.mem_cons, not_or]
            exact ⟨hxe, hx⟩
          refine (pop_off hd hxq).trans (h.clear x ?_ (hnone x hout))
          rw [hq]
          exact hxq

/-- **The section of `waitqueue_wake_all`.** -/
theorem inv_wqWakeAll (h : WqInv s a) (hoff : s.phase c = .off) :
    WqInv { s with wq := ⟨none, none⟩, phase := update s.phase c (.all s.wq.head) }
      (a.step (.wakeAll c)) := by
  have hwalk : s.walk a c = [] := by unfold WqSys.walk; rw [hoff]
  unfold WqSpec.step
  rw [h.chain.head]
  refine wqInv_phase h dlist_nil (.all h.chain.strung (fun b hb => by cases hb) h.chain.nodup)
    (fun _ x hx => ⟨List.not_mem_nil, fun d _ hin => h.queued d x hin hx⟩)
    (fun d _ x _ => ⟨rfl, List.not_mem_nil⟩) fun x _ hout hq => ?_
  refine h.clear x (hq rfl) fun d => ?_
  by_cases hdc : d = c
  · rw [hdc, hwalk]
    exact List.not_mem_nil
  · exact hout d hdc

/-- **The rest of a call that wakes**, one step of it. -/
theorem inv_wqWake (h : WqInv s a) (hs : wakeStep s c = some s') :
    WqInv s' (a.step (.wake c)) := by
  unfold wakeStep at hs
  show WqInv s' { a with due := update a.due c (a.due c).tail }
  have hidle : ∀ x, s.walk a c = [] → (∀ d, d ≠ c → x ∉ s.walk a d) → ∀ d, x ∉ s.walk a d := by
    intro x hwalk hx d
    by_cases hdc : d = c
    · rw [hdc, hwalk]
      exact List.not_mem_nil
    · exact hx d hdc
  split at hs
  · cases hs
  · rename_i e hp
    cases hs
    have hnil : (a.due c).tail = [] := by
      rw [h.one c e hp]
      cases e <;> rfl
    rw [hnil]
    have hwalk : s.walk a c = [] := by unfold WqSys.walk; rw [hp]
    exact wqInv_phase h h.chain .off (fun hall => by cases hall)
      (fun d _ x hx => ⟨rfl, h.queued d x hx⟩)
      fun x hx hout _ => h.clear x hx (hidle x hwalk hout)
  · rename_i hp
    cases hs
    have hdue : a.due c = [] := List.head?_eq_none_iff.mp (h.all c none hp).symm
    have hwalk : s.walk a c = [] := by
      unfold WqSys.walk
      rw [hp]
      exact hdue
    rw [hdue]
    exact wqInv_phase h h.chain .off (fun hall => by cases hall)
      (fun d _ x hx => ⟨rfl, h.queued d x hx⟩)
      fun x hx hout _ => h.clear x hx (hidle x hwalk hout)
  · rename_i e hp
    cases hs
    obtain ⟨p, hstr, hpout⟩ := h.strung c
    have hnd := h.nodup c
    have hwalk : s.walk a c = a.due c := by unfold WqSys.walk; rw [hp]
    obtain ⟨m, hm⟩ : ∃ m, a.due c = e :: m := by
      have hhead := h.all c _ hp
      cases hd : a.due c with
      | nil =>
          rw [hd] at hhead
          cases hhead
      | cons g m =>
          rw [hd] at hhead
          cases hhead
          exact ⟨m, rfl⟩
    rw [hwalk, hm] at hstr hnd
    obtain ⟨-, hnext, hrest⟩ := hstr
    rw [Option.or_none] at hnext
    have hem : e ∉ m := (List.nodup_cons.mp hnd).1
    have hin : ∀ x, x ∈ e :: m → x ∈ s.walk a c := fun x hx => by
      rw [hwalk, hm]
      exact hx
    have hq : e ∉ a.queue := h.queued c e (hin e List.mem_cons_self)
    rw [hm, hnext]
    refine wqInv_phase h (dlist_update h.chain hq _) (.all (strung_update hrest hem _)
      (fun b hb => by cases hb; exact hem) (List.nodup_cons.mp hnd).2) (fun _ x hx => ?_)
      (fun d hdc x hx => ⟨?_, h.queued d x hx⟩) fun x hx hout hrest' => ?_
    · have hxw := hin x (List.mem_cons_of_mem _ hx)
      exact ⟨h.queued c x hxw, fun d hdc => h.apart c d x (Ne.symm hdc) hxw⟩
    · refine update_of_ne (fun he => ?_) _ _
      exact h.apart d c x hdc hx (by rw [he]; exact hin e List.mem_cons_self)
    · by_cases hxe : x = e
      · rw [hxe]
        exact update_self _ _ _
      · refine (update_of_ne hxe _ _).trans (h.clear x hx fun d => ?_)
        by_cases hdc : d = c
        · rw [hdc, hwalk, hm, List.mem_cons, not_or]
          exact ⟨hxe, hrest' rfl⟩
        · exact hout d hdc

/-- **One step.** -/
theorem inv_wqStep {e : WqEvent n} (h : WqInv s a) (hclean : NotUnderWalk s e)
    (hs : wqStep s e = some s') : WqInv s' (a.step e) := by
  cases e with
  | add c x =>
      rw [wqStep] at hs
      split at hs
      · obtain ⟨r, hr, rfl⟩ := Option.map_eq_some_iff.mp hs
        exact inv_wqAdd h hclean.1 hclean.2 hr
      · cases hs
  | del c x =>
      rw [wqStep] at hs
      split at hs
      · cases hs
        exact inv_wqDel h hclean
      · cases hs
  | wakeOne c =>
      rw [wqStep] at hs
      split at hs
      · rename_i hoff
        cases hs
        exact inv_wqWakeOne h hoff
      · cases hs
  | wakeAll c =>
      rw [wqStep] at hs
      split at hs
      · rename_i hoff
        cases hs
        exact inv_wqWakeAll h hoff
      · cases hs
  | wake c => exact inv_wqWake h hs

/-- **The queue follows its purpose**, in every run that deletes no item from under a walk. -/
theorem follows_spec {es : List (WqEvent n)} (hrun : Runs wqStep NotUnderWalk (wqInit n) es s) :
    WqFollows s (es.foldl WqSpec.step (WqSpec.empty n)) :=
  follows_of_inv (runs_simulate WqInv wqInv_init (fun _ _ _ _ => inv_wqStep) hrun)

end Inv

/-! ## 5. A deletion from under a walk -/

/-- Two items are added, and taken off to be woken in this order. -/
theorem follows_spec_two : ∃ s : WqSys 2,
    WqFollows s ([.add 0 1, .add 0 2, .wakeAll 0].foldl WqSpec.step (WqSpec.empty 2)) := by
  refine ⟨_, follows_spec (.step (.step (.step .start ?_ rfl) ?_ rfl) True.intro rfl)⟩
  · refine ⟨fun h => ?_, fun _ h => ?_⟩
    · cases h
    · obtain ⟨_, he, -⟩ := h
      cases he
  · refine ⟨fun h => ?_, fun _ h => ?_⟩
    · rcases h with _ | h
      cases h
    · obtain ⟨_, he, -⟩ := h
      cases he

/-- **Two items are taken off to be woken, and the first is deleted**: now the second is the head of
    a queue without a tail. -/
theorem del_under_walk : ∃ s,
    Runs wqStep (fun _ _ => True) (wqInit 2) [.add 0 1, .add 0 2, .wakeAll 0, .del 1 1] s ∧
      s.wq = ⟨some 2, none⟩ ∧ ∀ a, ¬ WqFollows s a := by
  refine ⟨_, runs_exec rfl, rfl, fun a h => ?_⟩
  obtain ⟨hd, -, -⟩ := h
  have hnil := List.getLast?_eq_none_iff.mp hd.tail.symm
  have hhead := hd.head
  rw [hnil] at hhead
  cases hhead

end Slightx
