/-
  File:      Slightx/Proc/Sleeperlist.lean
  Subject:   The tasks that sleep on one processor, and the tick that wakes them.

  Sources: kernel/proc/scheduler/sleeperlist.c, kernel/proc/scheduler/controller.c
  (`scheduler_tick`, `scheduler_wakeup_after`), klibc/chrono/timer.c.

  The list of one processor, with its clock. A call takes the lock of the list and is one step. A
  record may be read and written while its block is in use; after `deallocate` it may not. A tick
  passes as many records as the list counts at most.

  * `SleeperHistory` -- what was added, and the ticks there were
  * `Added.firstDue` -- which tick is the first to find a sleeper due
  * `wp_tickLoop` -- one tick, by induction on the part of the list it still has to visit
  * `sleeperlist_wakes` -- each tick wakes and frees those it is the first to find due, in the order
    they were added, and the list is what no tick has found due
-/
import Slightx.Lib.DList
import Slightx.Lib.Machine
import Slightx.Klibc.Timer
import Mathlib.Data.List.Perm.Subperm

namespace Slightx

open Lib Function

/-! ## 1. The list and its calls -/

/-- A `sleeper *` that is not NULL. -/
abbrev SleeperPtr := { a : Uptr // a ≠ 0 }

/-- `struct waiter`, without a function where `wake` is NULL. -/
structure Waiter where
  wake : Option Uptr
  udata : Uptr
  deriving DecidableEq, Repr

structure Sleeper where
  timer : Timer
  durationNs : U64
  /-- the address of the `waitqueue_item` -/
  w : Uptr
  siblings : Links SleeperPtr
  deriving DecidableEq

structure Sleeperlist where
  head : Option SleeperPtr
  tail : Option SleeperPtr
  count : Usize
  deriving DecidableEq

/-- `waiter.wake(waiter.udata)`, for the waiter of the item `w`. -/
structure WakeCall where
  w : Uptr
  wake : Uptr
  udata : Uptr
  deriving DecidableEq, Repr

/-- The list of a processor with its records, the blocks in use, and what its ticks did. -/
structure SleeperSys where
  uptimeNs : U64
  list : Sleeperlist
  sleepers : SleeperPtr → Sleeper
  live : SleeperPtr → Bool
  calls : List WakeCall
  freed : List SleeperPtr

inductive SleeperFault where
  | kernel (fault : Fault)
  /-- an access to a block that is not in use -/
  | dead (a : SleeperPtr)
  /-- a loop that goes on after all its rounds -/
  | unended
  deriving DecidableEq

abbrev SleeperProg := Prog SleeperFault SleeperSys

/-- A call on a timer, which is a field of a record. -/
def callTimer {α : Type} (x : Prog Fault Timer α) (timer : Timer) : SleeperProg (α × Timer) :=
  match x timer with
  | .ok r => pure r
  | .error fault => throw (.kernel fault)

def sleeperAt (a : SleeperPtr) : SleeperProg Sleeper := do
  let sys ← get
  if sys.live a then pure (sys.sleepers a) else throw (.dead a)

def sleeperPut (a : SleeperPtr) (s : Sleeper) : SleeperProg Unit := do
  let sys ← get
  if sys.live a then set { sys with sleepers := update sys.sleepers a s } else throw (.dead a)

/-- `a->siblings.next = next` -/
def setNext (a : SleeperPtr) (next : Option SleeperPtr) : SleeperProg Unit := do
  let s ← sleeperAt a
  sleeperPut a { s with siblings := { s.siblings with next } }

/-- `a->siblings.prev = prev` -/
def setPrev (a : SleeperPtr) (prev : Option SleeperPtr) : SleeperProg Unit := do
  let s ← sleeperAt a
  sleeperPut a { s with siblings := { s.siblings with prev } }

def setList (f : Sleeperlist → Sleeperlist) : SleeperProg Unit :=
  modify fun sys => { sys with list := f sys.list }

/-- `deallocate(a, s, sizeof(sleeper))` -/
def sleeperFree (s : SleeperPtr) : SleeperProg Unit := do
  let sys ← get
  if sys.live s then
    set { sys with live := update sys.live s false, freed := sys.freed ++ [s] }
  else throw (.dead s)

/-- `if (self->tail != NULL) self->tail->siblings.next = s;` -/
def linkTail (s : SleeperPtr) : SleeperProg Unit := do
  match (← get).list.tail with
  | some t => setNext t (some s)
  | none => pure ()

/-- `sleeperlist_add`, where `s` is the block `allocate` returns. -/
def sleeperlistAdd (s : SleeperPtr) (duration : U64) (w : Uptr) : SleeperProg Unit := do
  if w = 0 then throw (.kernel (.assertion "w != NULL"))
  else do
    let sys ← get
    let started ← callTimer (timerStart sys.uptimeNs) timerInit
    modify fun sys => { sys with
      live := update sys.live s true
      sleepers := update sys.sleepers s
        { timer := started.2, durationNs := duration, w := w, siblings := ⟨sys.list.tail, none⟩ } }
    linkTail s
    setList fun self => { self with tail := some s }
    setList fun self => { self with head := if self.head = none then some s else self.head }
    setList fun self => { self with count := self.count + 1 }

/-- `timer_elapsed_ns(&s->timer) >= s->duration_ns` -/
def isDue (s : Sleeper) : SleeperProg Bool := do
  let elapsed ← callTimer (timerElapsedNs (← get).uptimeNs) s.timer
  pure (decide (s.durationNs ≤ elapsed.1))

/-- The call a waiter is owed. -/
def wakeCall (waiters : Uptr → Waiter) (w : Uptr) : Option WakeCall :=
  (waiters w).wake.map fun wake => { w, wake, udata := (waiters w).udata }

/-- `if (s->w->waiter.wake != NULL) s->w->waiter.wake(s->w->waiter.udata);` -/
def wakeWaiter (waiters : Uptr → Waiter) (w : Uptr) : SleeperProg Unit :=
  modify fun sys => { sys with calls := sys.calls ++ (wakeCall waiters w).toList }

/-- What led to `s` from before it leads past it. -/
def unlinkPrev (s : SleeperPtr) : SleeperProg Unit := do
  let self ← sleeperAt s
  match self.siblings.prev with
  | some p => setNext p self.siblings.next
  | none => setList fun list => { list with head := self.siblings.next }

/-- What led to `s` from behind it leads past it. -/
def unlinkNext (s : SleeperPtr) : SleeperProg Unit := do
  let self ← sleeperAt s
  match self.siblings.next with
  | some n => setPrev n self.siblings.prev
  | none => setList fun list => { list with tail := self.siblings.prev }

/-- A round of `sleeperlist_tick`. -/
def tickSleeper (waiters : Uptr → Waiter) (s : SleeperPtr) : SleeperProg Unit := do
  let self ← sleeperAt s
  if ← isDue self then do
    wakeWaiter waiters self.w
    unlinkPrev s
    unlinkNext s
    setList fun list => { list with count := list.count - 1 }
    sleeperFree s
  else pure ()

/-- `while (s != NULL)`, with the link of `s` read before its round. -/
def tickLoop (waiters : Uptr → Waiter) : (rounds : Nat) → Option SleeperPtr → SleeperProg Unit
  | _, none => pure ()
  | 0, some _ => throw .unended
  | rounds + 1, some s => do
      let next := (← sleeperAt s).siblings.next
      tickSleeper waiters s
      tickLoop waiters rounds next

/-- `sleeperlist_tick`, where `waiters` are the waiters of the items as it finds them. -/
def sleeperlistTick (waiters : Uptr → Waiter) : SleeperProg Unit := do
  let sys ← get
  tickLoop waiters sys.list.count.toNat sys.list.head

/-- `sleeperlist_init` -/
def sleeperlistInit : Sleeperlist := { head := none, tail := none, count := 0 }

inductive SleeperEvent where
  /-- `uptime_ns += ns` -/
  | advance (ns : U64)
  | add (s : SleeperPtr) (duration : U64) (w : Uptr)
  | tick (waiters : Uptr → Waiter)

def finish (x : SleeperProg Unit) (sys : SleeperSys) : Option SleeperSys :=
  match x sys with
  | .ok (_, sys') => some sys'
  | .error _ => none

def sleeperStep (sys : SleeperSys) : SleeperEvent → Option SleeperSys
  | .advance ns => some { sys with uptimeNs := sys.uptimeNs + ns }
  | .add s duration w => finish (sleeperlistAdd s duration w) sys
  | .tick waiters => finish (sleeperlistTick waiters) sys

/-- The clock does not wrap, an item is not NULL, and a block that is allocated was not in use. -/
def SleeperLegal (sys : SleeperSys) : SleeperEvent → Prop
  | .advance ns => sys.uptimeNs ≤ sys.uptimeNs + ns
  | .add s _ w => w ≠ 0 ∧ sys.live s = false
  | .tick _ => True

instance (sys : SleeperSys) : (ev : SleeperEvent) → Decidable (SleeperLegal sys ev)
  | .advance ns => inferInstanceAs (Decidable (sys.uptimeNs ≤ sys.uptimeNs + ns))
  | .add s _ w => inferInstanceAs (Decidable (w ≠ 0 ∧ sys.live s = false))
  | .tick _ => inferInstanceAs (Decidable True)

/-- Nothing sleeps; the records are whatever memory holds. -/
def sleeperBoot (now : U64) (memory : SleeperPtr → Sleeper) : SleeperSys :=
  { uptimeNs := now, list := sleeperlistInit, sleepers := memory, live := fun _ => false,
    calls := [], freed := [] }

/-! ## 2. What it is for -/

/-- A call of `sleeperlist_add`: its block, the time of the call, and how many ticks there were. -/
structure Added where
  node : SleeperPtr
  start : U64
  duration : U64
  w : Uptr
  since : Nat
  deriving DecidableEq

structure SleeperTick where
  now : U64
  waiters : Uptr → Waiter

structure SleeperHistory where
  now : U64
  added : List Added
  ticks : List SleeperTick

def SleeperHistory.step (hist : SleeperHistory) : SleeperEvent → SleeperHistory
  | .advance ns => { hist with now := hist.now + ns }
  | .add node duration w =>
      { hist with added := hist.added ++ [⟨node, hist.now, duration, w, hist.ticks.length⟩] }
  | .tick waiters => { hist with ticks := hist.ticks ++ [⟨hist.now, waiters⟩] }

/-- The time since the start is at least the duration. -/
def Added.dueAt (e : Added) (now : U64) : Bool :=
  decide (e.duration.toNat ≤ now.toNat - e.start.toNat)

/-- **The number of the first tick that finds the sleeper due**, if there was one. -/
def Added.firstDue (e : Added) (ticks : List SleeperTick) : Option Nat :=
  ((ticks.drop e.since).findIdx? fun t => e.dueAt t.now).map (e.since + ·)

/-- The sleepers that no tick has found due, in the order they were added. -/
def SleeperHistory.pending (hist : SleeperHistory) : List Added :=
  hist.added.filter fun e => e.firstDue hist.ticks = none

/-- Those that tick `k` was the first to find due. -/
def SleeperHistory.dueIn (hist : SleeperHistory) (k : Nat) : List Added :=
  hist.added.filter fun e => e.firstDue hist.ticks = some k

/-- One call for each sleeper that is found due, tick after tick. -/
def SleeperHistory.calls (hist : SleeperHistory) : List WakeCall :=
  hist.ticks.zipIdx.flatMap fun t => (hist.dueIn t.2).filterMap fun e => wakeCall t.1.waiters e.w

def SleeperHistory.freed (hist : SleeperHistory) : List SleeperPtr :=
  hist.ticks.zipIdx.flatMap fun t => (hist.dueIn t.2).map Added.node

/-- What is in the record of a sleeper, its links apart. -/
structure Added.Recorded (e : Added) (s : Sleeper) : Prop where
  timer : s.timer = { startedAt := e.start, pausedAt := 0, started := true, paused := false }
  duration : s.durationNs = e.duration
  w : s.w = e.w

def links (sleepers : SleeperPtr → Sleeper) : SleeperPtr → Links SleeperPtr :=
  fun a => (sleepers a).siblings

/-- **The state is what the history says**: the links spell the pending sleepers from both ends. -/
structure SleeperlistIs (sys : SleeperSys) (hist : SleeperHistory) : Prop where
  now : sys.uptimeNs = hist.now
  forward : Lib.Follows (links sys.sleepers) sys.list.head (hist.pending.map Added.node)
  backward : Lib.Follows (turned (links sys.sleepers)) sys.list.tail
    (hist.pending.map Added.node).reverse
  nodup : (hist.pending.map Added.node).Nodup
  records : ∀ e ∈ hist.pending, e.Recorded (sys.sleepers e.node)
  live : ∀ a, sys.live a = true ↔ a ∈ hist.pending.map Added.node
  count : sys.list.count.toNat = hist.pending.length
  calls : sys.calls = hist.calls
  freed : sys.freed = hist.freed

/-! ## 3. Which tick it is -/

section History

variable {e : Added} {ticks : List SleeperTick} {t : SleeperTick} {k : Nat}

/-- A further tick is the first for those it finds due and no earlier one did. -/
theorem firstDue_snoc (hsince : e.since ≤ ticks.length) :
    e.firstDue (ticks ++ [t]) =
      (e.firstDue ticks).or (if e.dueAt t.now then some ticks.length else none) := by
  have hlen : e.since + (ticks.length - e.since) = ticks.length := by omega
  unfold Added.firstDue
  rw [List.drop_append_of_le_length hsince, List.findIdx?_append, List.length_drop]
  cases (ticks.drop e.since).findIdx? fun t => e.dueAt t.now with
  | some i => rfl
  | none =>
      cases hd : e.dueAt t.now with
      | true => simp [hd, hlen]
      | false => simp [hd]

theorem firstDue_lt (h : e.firstDue ticks = some k) : k < ticks.length := by
  unfold Added.firstDue at h
  obtain ⟨i, hi, rfl⟩ := Option.map_eq_some_iff.mp h
  have hlt := (List.findIdx?_eq_some_iff_getElem.mp hi).1
  rw [List.length_drop] at hlt
  omega

/-- The ticks before the call are not looked at. -/
theorem firstDue_new (hsince : e.since = ticks.length) : e.firstDue ticks = none := by
  unfold Added.firstDue
  rw [hsince, List.drop_length]
  rfl

end History

/-- A call is not made after now, nor does it count more ticks than there were. -/
structure HistoryInv (hist : SleeperHistory) : Prop where
  start : ∀ e ∈ hist.added, e.start ≤ hist.now
  since : ∀ e ∈ hist.added, e.since ≤ hist.ticks.length

section History

variable {hist : SleeperHistory} {waiters : Uptr → Waiter} {k : Nat} {α : Type}

theorem pending_added {e : Added} (he : e ∈ hist.pending) : e ∈ hist.added :=
  (List.mem_filter.mp he).1

theorem pending_add (s : SleeperPtr) (duration : U64) (w : Uptr) :
    (hist.step (.add s duration w)).pending =
      hist.pending ++ [⟨s, hist.now, duration, w, hist.ticks.length⟩] := by
  unfold SleeperHistory.pending
  show (hist.added ++ [_]).filter _ = _
  rw [List.filter_append]
  congr 1
  refine List.filter_cons_of_pos ?_
  exact decide_eq_true (firstDue_new rfl)

theorem dueIn_add (s : SleeperPtr) (duration : U64) (w : Uptr) :
    (hist.step (.add s duration w)).dueIn k = hist.dueIn k := by
  show (hist.added ++ [_]).filter (fun e => e.firstDue hist.ticks = some k) =
    hist.added.filter fun e => e.firstDue hist.ticks = some k
  rw [List.filter_append, List.filter_cons_of_neg, List.filter_nil, List.append_nil]
  rw [firstDue_new rfl]
  exact Bool.false_ne_true

theorem pending_tick (h : HistoryInv hist) :
    (hist.step (.tick waiters)).pending = hist.pending.filter fun e => ¬ e.dueAt hist.now := by
  unfold SleeperHistory.pending
  rw [List.filter_filter]
  refine List.filter_congr fun e he => ?_
  show decide (e.firstDue (hist.ticks ++ [⟨hist.now, waiters⟩]) = none) = _
  rw [firstDue_snoc (h.since e he)]
  cases e.firstDue hist.ticks <;> cases e.dueAt hist.now <;> rfl

theorem dueIn_tick (h : HistoryInv hist) (hk : k < hist.ticks.length) :
    (hist.step (.tick waiters)).dueIn k = hist.dueIn k := by
  refine List.filter_congr fun e he => ?_
  show decide (e.firstDue (hist.ticks ++ [⟨hist.now, waiters⟩]) = some k) = _
  rw [firstDue_snoc (h.since e he)]
  cases e.firstDue hist.ticks with
  | some i => rfl
  | none =>
      have hne : hist.ticks.length ≠ k := Nat.ne_of_gt hk
      cases e.dueAt hist.now with
      | true => simp [hne]
      | false => rfl

/-- The new tick is the first for the pending ones it finds due. -/
theorem dueIn_new (h : HistoryInv hist) :
    (hist.step (.tick waiters)).dueIn hist.ticks.length =
      hist.pending.filter fun e => e.dueAt hist.now := by
  unfold SleeperHistory.pending
  rw [List.filter_filter]
  refine List.filter_congr fun e he => ?_
  show decide (e.firstDue (hist.ticks ++ [⟨hist.now, waiters⟩]) = some hist.ticks.length) = _
  rw [firstDue_snoc (h.since e he)]
  cases hf : e.firstDue hist.ticks with
  | some i =>
      have hlt : i < hist.ticks.length := firstDue_lt hf
      simp [Nat.ne_of_lt hlt]
  | none => cases e.dueAt hist.now <;> simp

/-- What is done for each tick, over one tick more. -/
theorem flatMap_tick {f f' : Nat → SleeperTick → List α} {ticks : List SleeperTick}
    {t : SleeperTick} (hf : ∀ k u, k < ticks.length → f' k u = f k u) :
    ((ticks ++ [t]).zipIdx.flatMap fun u => f' u.2 u.1) =
      (ticks.zipIdx.flatMap fun u => f u.2 u.1) ++ f' ticks.length t := by
  rw [List.zipIdx_append, List.flatMap_append]
  congr 1
  · refine List.flatMap_congr fun u hu => hf _ _ ?_
    have hlt := List.snd_lt_of_mem_zipIdx hu
    omega
  · simp

theorem calls_tick (h : HistoryInv hist) :
    (hist.step (.tick waiters)).calls = hist.calls ++
      (hist.pending.filter fun e => e.dueAt hist.now).filterMap fun e => wakeCall waiters e.w := by
  have hold : ∀ k (u : SleeperTick), k < hist.ticks.length →
      ((hist.step (.tick waiters)).dueIn k).filterMap (fun e => wakeCall u.waiters e.w) =
        (hist.dueIn k).filterMap fun e => wakeCall u.waiters e.w := fun k u hk => by
    rw [dueIn_tick h hk]
  rw [← @dueIn_new _ waiters h]
  exact flatMap_tick hold

theorem freed_tick (h : HistoryInv hist) :
    (hist.step (.tick waiters)).freed = hist.freed ++
      (hist.pending.filter fun e => e.dueAt hist.now).map Added.node := by
  have hold : ∀ k (_ : SleeperTick), k < hist.ticks.length →
      ((hist.step (.tick waiters)).dueIn k).map Added.node = (hist.dueIn k).map Added.node :=
    fun k _ hk => by rw [dueIn_tick h hk]
  rw [← @dueIn_new _ waiters h]
  exact flatMap_tick hold

theorem calls_add (s : SleeperPtr) (duration : U64) (w : Uptr) :
    (hist.step (.add s duration w)).calls = hist.calls := by
  unfold SleeperHistory.calls
  simp only [dueIn_add]
  rfl

theorem freed_add (s : SleeperPtr) (duration : U64) (w : Uptr) :
    (hist.step (.add s duration w)).freed = hist.freed := by
  unfold SleeperHistory.freed
  simp only [dueIn_add]
  rfl

end History

/-! ## 4. Links and records -/

section Halves

variable {ι : Type} [DecidableEq ι] {node : ι → Links ι} {x : ι}

/-- The node before `x` linked past it. -/
def pastPrev (node : ι → Links ι) (x : ι) : ι → Links ι :=
  match (node x).prev with
  | some p => update node p { node p with next := (node x).next }
  | none => node

/-- The node behind `x` linked past it. -/
def pastNext (node : ι → Links ι) (x : ι) : ι → Links ι :=
  match (node x).next with
  | some n => update node n { node n with prev := (node x).prev }
  | none => node

theorem pastPrev_self (hx : (node x).prev ≠ some x) : pastPrev node x x = node x := by
  unfold pastPrev
  cases hp : (node x).prev with
  | none => rfl
  | some p =>
      have hne : x ≠ p := fun he => hx (he ▸ hp)
      exact update_of_ne hne _ _

/-- The two halves one after the other. -/
theorem bypass_halves (hx : (node x).prev ≠ some x) :
    bypass node x = pastNext (pastPrev node x) x := by
  unfold pastNext
  rw [pastPrev_self hx]
  rfl

end Halves

/-- The records with other links. -/
def relink (sleepers : SleeperPtr → Sleeper) (k : SleeperPtr → Links SleeperPtr) :
    SleeperPtr → Sleeper :=
  fun a => { sleepers a with siblings := k a }

section Records

variable {sys : SleeperSys} {a : SleeperPtr} {l₁ l₂ : List SleeperPtr} {α : Type}
  {timer : Timer}

@[simp] theorem links_relink (sleepers : SleeperPtr → Sleeper)
    (k : SleeperPtr → Links SleeperPtr) : links (relink sleepers k) = k := rfl

theorem recorded_relink {e : Added} {sleepers : SleeperPtr → Sleeper}
    {k : SleeperPtr → Links SleeperPtr} :
    e.Recorded (relink sleepers k a) ↔ e.Recorded (sleepers a) :=
  ⟨fun h => ⟨h.timer, h.duration, h.w⟩, fun h => ⟨h.timer, h.duration, h.w⟩⟩

theorem update_relink (sleepers : SleeperPtr → Sleeper) (a : SleeperPtr) (k : Links SleeperPtr) :
    update sleepers a { sleepers a with siblings := k } =
      relink sleepers (update (links sleepers) a k) := by
  funext b
  rcases eq_or_ne b a with rfl | hb
  · rw [update_self]
    simp [relink]
  · rw [update_of_ne hb]
    unfold relink
    rw [update_of_ne hb]
    rfl

theorem wp_callTimer (x : Prog Fault Timer α) (Q : α × Timer → SleeperSys → Prop) :
    wp (callTimer x timer) sys Q ↔ wp x timer fun r timer' => Q (r, timer') sys := by
  unfold callTimer
  cases hx : x timer with
  | ok r => rw [wp_of_eq hx, wp_pure]
  | error fault =>
      rw [wp_throw]
      exact iff_of_false id (not_wp_of_stops hx _)

theorem wp_sleeperAt (ha : sys.live a = true) (Q : Sleeper → SleeperSys → Prop) :
    wp (sleeperAt a) sys Q ↔ Q (sys.sleepers a) sys := by
  unfold sleeperAt
  rw [wp_bind, wp_get, if_pos ha, wp_pure]

theorem wp_sleeperPut (ha : sys.live a = true) (s : Sleeper) (Q : Unit → SleeperSys → Prop) :
    wp (sleeperPut a s) sys Q ↔ Q () { sys with sleepers := update sys.sleepers a s } := by
  unfold sleeperPut
  rw [wp_bind, wp_get, if_pos ha, wp_set]

theorem wp_setNext (ha : sys.live a = true) (next : Option SleeperPtr)
    (Q : Unit → SleeperSys → Prop) :
    wp (setNext a next) sys Q ↔ Q () { sys with
      sleepers := relink sys.sleepers
        (update (links sys.sleepers) a { links sys.sleepers a with next }) } := by
  unfold setNext
  rw [wp_bind, wp_sleeperAt ha, wp_sleeperPut ha, update_relink]
  rfl

theorem wp_setPrev (ha : sys.live a = true) (prev : Option SleeperPtr)
    (Q : Unit → SleeperSys → Prop) :
    wp (setPrev a prev) sys Q ↔ Q () { sys with
      sleepers := relink sys.sleepers
        (update (links sys.sleepers) a { links sys.sleepers a with prev }) } := by
  unfold setPrev
  rw [wp_bind, wp_sleeperAt ha, wp_sleeperPut ha, update_relink]
  rfl

theorem links_update (sleepers : SleeperPtr → Sleeper) (a : SleeperPtr) (s : Sleeper) :
    links (update sleepers a s) = update (links sleepers) a s.siblings :=
  comp_update Sleeper.siblings sleepers a s

theorem wp_linkTail (ht : ∀ t, sys.list.tail = some t → sys.live t = true)
    (Q : Unit → SleeperSys → Prop) :
    wp (linkTail a) sys Q ↔ Q () { sys with
      sleepers := relink sys.sleepers (match sys.list.tail with
        | some t => update (links sys.sleepers) t { links sys.sleepers t with next := some a }
        | none => links sys.sleepers) } := by
  unfold linkTail
  rw [wp_bind, wp_get]
  cases htail : sys.list.tail with
  | none => exact wp_pure _ _ _
  | some t => exact wp_setNext (ht t htail) _ _

theorem wp_setList (f : Sleeperlist → Sleeperlist) (Q : Unit → SleeperSys → Prop) :
    wp (setList f) sys Q ↔ Q () { sys with list := f sys.list } :=
  wp_modify _ _ _

theorem wp_unlinkPrev (ha : sys.live a = true)
    (hp : ∀ p, (links sys.sleepers a).prev = some p → sys.live p = true)
    (Q : Unit → SleeperSys → Prop) :
    wp (unlinkPrev a) sys Q ↔ Q () { sys with
      sleepers := relink sys.sleepers (pastPrev (links sys.sleepers) a)
      list := { sys.list with
        head := if (links sys.sleepers a).prev = none then (links sys.sleepers a).next
          else sys.list.head } } := by
  unfold unlinkPrev pastPrev
  rw [wp_bind, wp_sleeperAt ha]
  change wp (match (links sys.sleepers a).prev with
    | some p => setNext p (links sys.sleepers a).next
    | none => setList fun list => { list with head := (links sys.sleepers a).next }) _ _ ↔ _
  cases hprev : (links sys.sleepers a).prev with
  | none => exact wp_setList _ _
  | some p => exact wp_setNext (hp p hprev) _ _

theorem wp_unlinkNext (ha : sys.live a = true)
    (hn : ∀ n, (links sys.sleepers a).next = some n → sys.live n = true)
    (Q : Unit → SleeperSys → Prop) :
    wp (unlinkNext a) sys Q ↔ Q () { sys with
      sleepers := relink sys.sleepers (pastNext (links sys.sleepers) a)
      list := { sys.list with
        tail := if (links sys.sleepers a).next = none then (links sys.sleepers a).prev
          else sys.list.tail } } := by
  unfold unlinkNext pastNext
  rw [wp_bind, wp_sleeperAt ha]
  change wp (match (links sys.sleepers a).next with
    | some n => setPrev n (links sys.sleepers a).prev
    | none => setList fun list => { list with tail := (links sys.sleepers a).prev }) _ _ ↔ _
  cases hnext : (links sys.sleepers a).next with
  | none => exact wp_setList _ _
  | some n => exact wp_setPrev (hn n hnext) _ _

/-- **A member is linked out**: no link leads to it any more. -/
theorem wp_unlink
    (hd : DList (links sys.sleepers) sys.list.head sys.list.tail (l₁ ++ a :: l₂))
    (hlive : ∀ b ∈ l₁ ++ a :: l₂, sys.live b = true) (Q : Unit → SleeperSys → Prop) :
    wp (unlinkPrev a) sys (fun _ sys => wp (unlinkNext a) sys Q) ↔ Q () { sys with
      sleepers := relink sys.sleepers (bypass (links sys.sleepers) a)
      list := { sys.list with
        head := if (links sys.sleepers a).prev = none then (links sys.sleepers a).next
          else sys.list.head
        tail := if (links sys.sleepers a).next = none then (links sys.sleepers a).prev
          else sys.list.tail } } := by
  obtain ⟨hprev, hnext⟩ := dlist_at hd
  have ha : sys.live a = true := hlive a (by simp)
  have hnot : a ∉ l₁ := fun hin =>
    (List.nodup_append.mp hd.nodup).2.2 a hin a List.mem_cons_self rfl
  have hp : ∀ p, (links sys.sleepers a).prev = some p → p ∈ l₁ := fun p hp =>
    List.mem_of_getLast? (hprev ▸ hp)
  have hn : ∀ n, (links sys.sleepers a).next = some n → n ∈ l₂ := fun n hn =>
    List.mem_of_head? (hnext ▸ hn)
  have hself : (links sys.sleepers a).prev ≠ some a := fun he => hnot (hp a he)
  have hkept : pastPrev (links sys.sleepers) a a = links sys.sleepers a := pastPrev_self hself
  rw [wp_unlinkPrev ha fun p hp' => hlive p (by simp [hp p hp'])]
  refine (wp_unlinkNext ?_ (fun n hn' => ?_) Q).trans ?_
  · exact ha
  · simp only [links_relink, hkept] at hn'
    exact hlive n (by simp [hn n hn'])
  · rw [bypass_halves hself]
    simp only [links_relink, hkept]
    rfl

end Records

/-! ## 5. The invariant -/

/-- **The list holds the pending sleepers**, and exactly their blocks are in use. -/
structure SleeperInv (sys : SleeperSys) (pending : List Added) : Prop where
  chain : DList (links sys.sleepers) sys.list.head sys.list.tail (pending.map Added.node)
  records : ∀ e ∈ pending, e.Recorded (sys.sleepers e.node)
  live : ∀ a, sys.live a = true ↔ a ∈ pending.map Added.node
  count : sys.list.count = BitVec.ofNat 64 pending.length

/-- What the rounds of a tick did: `woken` are the sleepers they found due. -/
structure Ticked (waiters : Uptr → Waiter) (sys sys' : SleeperSys) (woken pending : List Added) :
    Prop where
  inv : SleeperInv sys' pending
  uptime : sys'.uptimeNs = sys.uptimeNs
  calls : sys'.calls = sys.calls ++ woken.filterMap fun e => wakeCall waiters e.w
  freed : sys'.freed = sys.freed ++ woken.map Added.node

section Inv

variable {sys sys' : SleeperSys} {pending kept rest woken woken' : List Added} {e : Added}
  {waiters : Uptr → Waiter} {hist : SleeperHistory}

/-- Pointers are few: the counter of a list without repetitions does not wrap. -/
theorem length_lt_of_nodup {l : List SleeperPtr} (hl : l.Nodup) : l.length < 2 ^ 64 := by
  have hnd : (0 :: l.map fun a => a.val.toNat).Nodup := by
    refine List.nodup_cons.mpr ⟨fun h0 => ?_, hl.map fun a b hab => ?_⟩
    · obtain ⟨a, _, ha⟩ := List.mem_map.mp h0
      exact a.property (BitVec.eq_of_toNat_eq ha)
    · exact Subtype.ext (BitVec.eq_of_toNat_eq hab)
  have hsub : (0 :: l.map fun a => a.val.toNat) ⊆ List.range (2 ^ 64) := fun k hk => by
    rw [List.mem_range]
    rcases List.mem_cons.mp hk with rfl | hk
    · decide
    · obtain ⟨a, _, rfl⟩ := List.mem_map.mp hk
      exact a.val.isLt
  have hle := (hnd.subperm hsub).length_le
  rw [List.length_range, List.length_cons, List.length_map] at hle
  exact hle

theorem toNat_count (h : SleeperInv sys pending) : sys.list.count.toNat = pending.length := by
  have hlt := length_lt_of_nodup h.chain.nodup
  rw [List.length_map] at hlt
  rw [h.count, ofNat_toNat_lt hlt]

theorem wp_isDue {s : Sleeper} (hrec : e.Recorded s) (hle : e.start ≤ sys.uptimeNs)
    (Q : Bool → SleeperSys → Prop) : wp (isDue s) sys Q ↔ Q (e.dueAt sys.uptimeNs) sys := by
  have hdue : decide (s.durationNs ≤ sys.uptimeNs - s.timer.startedAt) =
      e.dueAt sys.uptimeNs := by
    unfold Added.dueAt
    rw [hrec.duration, hrec.timer, decide_eq_decide, BitVec.le_def, BitVec.toNat_sub_of_le hle]
  have hstarted : s.timer.started = true := by rw [hrec.timer]
  have hpaused : s.timer.paused = false := by rw [hrec.timer]
  unfold isDue
  rw [wp_bind, wp_get, wp_bind, wp_callTimer, wp_timerElapsedNs hstarted, wp_pure, hpaused,
    if_neg Bool.false_ne_true, hdue]

theorem wp_tickSleeper_kept (h : SleeperInv sys (kept ++ e :: rest)) (hle : e.start ≤ sys.uptimeNs)
    (hdue : e.dueAt sys.uptimeNs = false) (Q : Unit → SleeperSys → Prop) :
    wp (tickSleeper waiters e.node) sys Q ↔ Q () sys := by
  have hlive : sys.live e.node = true := (h.live _).mpr (by simp)
  unfold tickSleeper
  rw [wp_bind, wp_sleeperAt hlive, wp_bind, wp_isDue (h.records e (by simp)) hle, hdue,
    if_neg Bool.false_ne_true, wp_pure]

/-- **A sleeper that is due** gets its call, leaves the list and is freed. -/
theorem wp_tickSleeper_due (h : SleeperInv sys (kept ++ e :: rest)) (hle : e.start ≤ sys.uptimeNs)
    (hdue : e.dueAt sys.uptimeNs = true) :
    wp (tickSleeper waiters e.node) sys fun _ sys' =>
      Ticked waiters sys sys' [e] (kept ++ rest) := by
  have hrec := h.records e (by simp)
  have hlive : sys.live e.node = true := (h.live _).mpr (by simp)
  have hd : DList (links sys.sleepers) sys.list.head sys.list.tail
      (kept.map Added.node ++ e.node :: rest.map Added.node) := by
    have hchain := h.chain
    rw [List.map_append, List.map_cons] at hchain
    exact hchain
  have hall : ∀ b ∈ kept.map Added.node ++ e.node :: rest.map Added.node, sys.live b = true :=
    fun b hb => (h.live b).mpr (by rw [List.map_append, List.map_cons]; exact hb)
  have hnot : e.node ∉ (kept ++ rest).map Added.node := by
    rw [List.map_append]
    exact (List.nodup_cons.mp (List.nodup_middle.mp hd.nodup)).1
  unfold tickSleeper wakeWaiter
  rw [wp_bind, wp_sleeperAt hlive, wp_bind, wp_isDue hrec hle, hdue, if_pos rfl, wp_bind, wp_modify,
    wp_bind]
  simp only [wp_bind]
  refine (@wp_unlink
    { sys with calls := sys.calls ++ (wakeCall waiters (sys.sleepers e.node).w).toList }
    e.node _ _ hd hall _).mpr ?_
  rw [wp_setList]
  unfold sleeperFree
  rw [wp_bind, wp_get, if_pos (show sys.live e.node = true from hlive), wp_set]
  refine ⟨⟨?_, fun e' he' => ?_, fun a => ?_, ?_⟩, rfl, ?_, rfl⟩
  · rw [List.map_append]
    exact dlist_bypass hd
  · have hmem : e' ∈ kept ++ e :: rest := by
      rcases List.mem_append.mp he' with he' | he'
      · exact List.mem_append_left _ he'
      · exact List.mem_append_right _ (List.mem_cons_of_mem _ he')
    exact recorded_relink.mpr (h.records e' hmem)
  · rcases eq_or_ne a e.node with rfl | hne
    · simp only [update_self]
      exact iff_of_false Bool.false_ne_true hnot
    · simp only [update_of_ne hne]
      rw [h.live a]
      simp [hne]
  · show sys.list.count - 1 = _
    rw [h.count]
    simp only [List.length_append, List.length_cons]
    rw [← Nat.add_assoc, BitVec.ofNat_add]
    exact BitVec.add_sub_cancel _ _
  · show sys.calls ++ (wakeCall waiters (sys.sleepers e.node).w).toList = _
    rw [hrec.w]
    cases hcall : wakeCall waiters e.w <;> simp [hcall]

theorem ticked_refl (h : SleeperInv sys pending) : Ticked waiters sys sys [] pending :=
  ⟨h, rfl, (List.append_nil _).symm, (List.append_nil _).symm⟩

theorem ticked_trans {sys'' : SleeperSys} {pending' : List Added}
    (h : Ticked waiters sys sys' woken pending) (h' : Ticked waiters sys' sys'' woken' pending') :
    Ticked waiters sys sys'' (woken ++ woken') pending' := by
  refine ⟨h'.inv, h'.uptime.trans h.uptime, ?_, ?_⟩
  · rw [h'.calls, h.calls, List.filterMap_append, List.append_assoc]
  · rw [h'.freed, h.freed, List.map_append, List.append_assoc]

/-- **The walk of a tick.** The sleepers before its place were not due; from there on, those that
    are due are woken and freed. -/
theorem wp_tickLoop {rounds : Nat} (h : SleeperInv sys (kept ++ rest))
    (hle : ∀ e ∈ rest, e.start ≤ sys.uptimeNs) (hrounds : rest.length ≤ rounds) :
    wp (tickLoop waiters rounds (rest.map Added.node).head?) sys fun _ sys' =>
      Ticked waiters sys sys' (rest.filter fun e => e.dueAt sys.uptimeNs)
        (kept ++ rest.filter fun e => ¬ e.dueAt sys.uptimeNs) := by
  induction rest generalizing sys kept rounds with
  | nil =>
      rw [List.map_nil, List.head?_nil, tickLoop, wp_pure]
      exact ticked_refl h
  | cons e rest ih =>
      obtain ⟨rounds, rfl⟩ : ∃ k, rounds = k + 1 :=
        ⟨rounds - 1, by rw [List.length_cons] at hrounds; omega⟩
      have hrounds' : rest.length ≤ rounds := Nat.le_of_succ_le_succ hrounds
      have hlive : sys.live e.node = true := (h.live _).mpr (by simp)
      have hstart := hle e List.mem_cons_self
      have hle' : ∀ e' ∈ rest, e'.start ≤ sys.uptimeNs := fun e' he' =>
        hle e' (List.mem_cons_of_mem _ he')
      have hnext : (sys.sleepers e.node).siblings.next = (rest.map Added.node).head? := by
        have hchain := h.chain
        rw [List.map_append, List.map_cons] at hchain
        exact dlist_next hchain
      rw [List.map_cons, List.head?_cons, tickLoop, wp_bind, wp_sleeperAt hlive, wp_bind, hnext]
      cases hdue : e.dueAt sys.uptimeNs with
      | true =>
          refine wp_mono (wp_tickSleeper_due h hstart hdue) fun _ sys' h' => ?_
          refine wp_mono (ih h'.inv (h'.uptime.symm ▸ hle') hrounds') fun _ sys'' h'' => ?_
          rw [h'.uptime] at h''
          have htick := ticked_trans h' h''
          rw [List.filter_cons, List.filter_cons, hdue]
          exact htick
      | false =>
          have hkept : SleeperInv sys ((kept ++ [e]) ++ rest) := by
            rw [List.append_assoc]
            exact h
          rw [wp_tickSleeper_kept h hstart hdue]
          refine wp_mono (ih hkept hle' hrounds') fun _ sys' h' => ?_
          rw [List.append_assoc] at h'
          rw [List.filter_cons, List.filter_cons, hdue]
          exact h'

theorem wp_sleeperlistTick (h : SleeperInv sys pending)
    (hle : ∀ e ∈ pending, e.start ≤ sys.uptimeNs) :
    wp (sleeperlistTick waiters) sys fun _ sys' =>
      Ticked waiters sys sys' (pending.filter fun e => e.dueAt sys.uptimeNs)
        (pending.filter fun e => ¬ e.dueAt sys.uptimeNs) := by
  have h' : SleeperInv sys ([] ++ pending) := h
  unfold sleeperlistTick
  rw [wp_bind, wp_get, h.chain.head]
  exact wp_tickLoop h' hle (Nat.le_of_eq (toNat_count h).symm)

/-- **A sleeper is added** behind the others. -/
theorem wp_sleeperlistAdd (h : SleeperInv sys pending) {s : SleeperPtr} {duration : U64} {w : Uptr}
    (hw : w ≠ 0) (hs : sys.live s = false) (since : Nat) :
    wp (sleeperlistAdd s duration w) sys fun _ sys' =>
      SleeperInv sys' (pending ++ [⟨s, sys.uptimeNs, duration, w, since⟩]) ∧
        sys'.uptimeNs = sys.uptimeNs ∧ sys'.calls = sys.calls ∧ sys'.freed = sys.freed := by
  have hnot : s ∉ pending.map Added.node := fun hin => by
    rw [(h.live s).mpr hin] at hs
    cases hs
  have happ := dlist_append h.chain hnot
  have hhead : (if sys.list.head = none then some s else sys.list.head) =
      sys.list.head.or (some s) := by
    cases sys.list.head <;> rfl
  have hother : ∀ e ∈ pending, e.node ≠ s := fun e he hes =>
    hnot (List.mem_map.mpr ⟨e, he, hes⟩)
  unfold sleeperlistAdd
  rw [if_neg hw, wp_bind, wp_get, wp_bind, wp_callTimer]
  unfold timerStart
  rw [wp_set, wp_bind, wp_modify, wp_bind]
  refine (wp_linkTail (fun t ht => ?_) _).mpr ?_
  · have hmem : t ∈ pending.map Added.node := List.mem_of_getLast? (h.chain.tail ▸ ht)
    show update sys.live s true t = true
    have hts : t ≠ s := fun hts => hnot (hts ▸ hmem)
    rw [update_of_ne hts, (h.live t).mpr hmem]
  · simp only [wp_bind, wp_setList, links_update]
    refine ⟨⟨?_, fun e he => ?_, fun a => ?_, ?_⟩, True.intro, True.intro, True.intro⟩
    · rw [List.map_append]
      simp only [hhead, links_relink]
      unfold linkBack at happ
      cases htail : sys.list.tail with
      | none =>
          rw [htail] at happ
          exact happ
      | some t =>
          rw [htail] at happ
          exact happ
    · refine recorded_relink.mpr ?_
      rcases List.mem_append.mp he with he | he
      · rw [update_of_ne (hother e he)]
        exact h.records e he
      · obtain rfl := List.mem_singleton.mp he
        rw [update_self]
        exact ⟨rfl, rfl, rfl⟩
    · rcases eq_or_ne a s with rfl | hne
      · simp
      · simp only [update_of_ne hne]
        rw [h.live a]
        simp [hne]
    · show sys.list.count + 1 = _
      rw [h.count, List.length_append, List.length_singleton, BitVec.ofNat_add]
      rfl

end Inv

/-! ## 6. Every run -/

/-- The state and the history it comes from. -/
structure SleeperSim (sys : SleeperSys) (hist : SleeperHistory) : Prop where
  now : sys.uptimeNs = hist.now
  history : HistoryInv hist
  inv : SleeperInv sys hist.pending
  calls : sys.calls = hist.calls
  freed : sys.freed = hist.freed

section Runs

variable {sys sys' : SleeperSys} {hist : SleeperHistory}

theorem finish_of_wp {x : SleeperProg Unit} {Q : SleeperSys → Prop}
    (h : wp x sys fun _ sys' => Q sys') : ∃ sys', finish x sys = some sys' ∧ Q sys' := by
  obtain ⟨_, sys', hx, hq⟩ := h
  refine ⟨sys', ?_, hq⟩
  unfold finish
  rw [hx]

theorem sleeperSim_boot (now : U64) (memory : SleeperPtr → Sleeper) :
    SleeperSim (sleeperBoot now memory) ⟨now, [], []⟩ := by
  refine ⟨rfl, ⟨fun e he => absurd he List.not_mem_nil, fun e he => absurd he List.not_mem_nil⟩,
    ⟨dlist_nil, fun e he => absurd he List.not_mem_nil, fun a => ?_, rfl⟩, rfl, rfl⟩
  exact iff_of_false Bool.false_ne_true List.not_mem_nil

theorem historyInv_advance (h : HistoryInv hist) {ns : U64} (hle : hist.now ≤ hist.now + ns) :
    HistoryInv (hist.step (.advance ns)) :=
  ⟨fun e he => BitVec.le_trans (h.start e he) hle, h.since⟩

theorem historyInv_add (h : HistoryInv hist) (s : SleeperPtr) (duration : U64) (w : Uptr) :
    HistoryInv (hist.step (.add s duration w)) := by
  refine ⟨fun e he => ?_, fun e he => ?_⟩
  · rcases List.mem_append.mp he with he | he
    · exact h.start e he
    · obtain rfl := List.mem_singleton.mp he
      exact BitVec.le_refl _
  · rcases List.mem_append.mp he with he | he
    · exact h.since e he
    · obtain rfl := List.mem_singleton.mp he
      exact Nat.le_refl _

theorem historyInv_tick (h : HistoryInv hist) (waiters : Uptr → Waiter) :
    HistoryInv (hist.step (.tick waiters)) := by
  refine ⟨h.start, fun e he => ?_⟩
  show e.since ≤ (hist.ticks ++ [_]).length
  rw [List.length_append]
  exact Nat.le_add_right_of_le (h.since e he)

/-- **Every call can be made, and leaves what the history says.** -/
theorem sleeperStep_some (h : SleeperSim sys hist) {ev : SleeperEvent}
    (hlegal : SleeperLegal sys ev) :
    ∃ sys', sleeperStep sys ev = some sys' ∧ SleeperSim sys' (hist.step ev) := by
  have hle : ∀ e ∈ hist.pending, e.start ≤ sys.uptimeNs := fun e he => by
    rw [h.now]
    exact h.history.start e (pending_added he)
  cases ev with
  | advance ns =>
      refine ⟨_, rfl, ?_, ?_, ⟨h.inv.chain, h.inv.records, h.inv.live, h.inv.count⟩, h.calls,
        h.freed⟩
      · show sys.uptimeNs + ns = hist.now + ns
        rw [h.now]
      · refine historyInv_advance h.history ?_
        rw [← h.now]
        exact hlegal
  | add s duration w =>
      obtain ⟨hw, hs⟩ := hlegal
      obtain ⟨sys', hstep, hinv, hnow, hcalls, hfreed⟩ :=
        finish_of_wp (@wp_sleeperlistAdd _ _ h.inv s duration w hw hs hist.ticks.length)
      refine ⟨sys', hstep, hnow.trans h.now, historyInv_add h.history s duration w, ?_, ?_, ?_⟩
      · rw [pending_add, ← h.now]
        exact hinv
      · rw [calls_add, hcalls, h.calls]
      · rw [freed_add, hfreed, h.freed]
  | tick waiters =>
      obtain ⟨sys', hstep, htick⟩ := finish_of_wp (@wp_sleeperlistTick _ _ waiters h.inv hle)
      rw [h.now] at htick
      refine ⟨sys', hstep, htick.uptime.trans h.now, historyInv_tick h.history waiters, ?_, ?_, ?_⟩
      · rw [pending_tick h.history]
        exact htick.inv
      · rw [calls_tick h.history, htick.calls, h.calls]
      · rw [freed_tick h.history, htick.freed, h.freed]

theorem sleeperSim_step (h : SleeperSim sys hist) {ev : SleeperEvent}
    (hlegal : SleeperLegal sys ev) (hs : sleeperStep sys ev = some sys') :
    SleeperSim sys' (hist.step ev) := by
  obtain ⟨sys'', hs', h'⟩ := sleeperStep_some h hlegal
  rw [hs] at hs'
  obtain rfl := Option.some.inj hs'
  exact h'

theorem sleeperlistIs_of_sim (h : SleeperSim sys hist) : SleeperlistIs sys hist := by
  have hd := h.inv.chain
  refine ⟨h.now, ?_, ?_, hd.nodup, h.inv.records, h.inv.live, toNat_count h.inv, h.calls, h.freed⟩
  · rw [hd.head]
    exact strung_follows hd.strung
  · rw [hd.tail, ← List.head?_reverse]
    exact strung_follows (strung_turned hd.strung)

end Runs

/-- **Sleepers wake at the first tick that finds them due**: after every run the calls made and the
    blocks freed are those of `SleeperHistory`, the list spells the sleepers no tick has found due
    with their records as they were added, its counter is their number, and the next call returns
    without touching a block that is not in use. -/
theorem sleeperlist_wakes {now : U64} {memory : SleeperPtr → Sleeper} {es : List SleeperEvent}
    {sys : SleeperSys} (hrun : Runs sleeperStep SleeperLegal (sleeperBoot now memory) es sys) :
    SleeperlistIs sys (es.foldl SleeperHistory.step ⟨now, [], []⟩) ∧
      ∀ ev, SleeperLegal sys ev → ∃ sys', sleeperStep sys ev = some sys' := by
  have h : SleeperSim sys (es.foldl SleeperHistory.step ⟨now, [], []⟩) :=
    runs_simulate SleeperSim (sleeperSim_boot now memory)
      (fun _ _ _ _ hi hlegal hs => sleeperSim_step hi hlegal hs) hrun
  refine ⟨sleeperlistIs_of_sim h, fun ev hlegal => ?_⟩
  obtain ⟨sys', hs, -⟩ := sleeperStep_some h hlegal
  exact ⟨sys', hs⟩

/-- Three sleep 9, 5 and 5 long, and there is a tick after 6. -/
def threeSleepers : List SleeperEvent :=
  [.add ⟨8, by decide⟩ 9 100, .add ⟨16, by decide⟩ 5 200, .add ⟨24, by decide⟩ 5 300, .advance 6,
    .tick fun _ => ⟨some 4096, 1⟩]

/-- The last two are woken in their order, the first sleeps on. -/
theorem sleeperlist_wakes_three : ∃ sys : SleeperSys,
    sys.calls = [⟨200, 4096, 1⟩, ⟨300, 4096, 1⟩] ∧ sys.freed = [⟨16, by decide⟩, ⟨24, by decide⟩] ∧
      Lib.Follows (links sys.sleepers) sys.list.head [⟨8, by decide⟩] ∧
      sys.list.count.toNat = 1 := by
  have hsome : (execIf sleeperStep (fun sys ev => decide (SleeperLegal sys ev))
      (sleeperBoot 0 fun _ => ⟨timerInit, 0, 0, ⟨none, none⟩⟩) threeSleepers).isSome = true := by
    decide +kernel
  have hpending : (threeSleepers.foldl SleeperHistory.step ⟨0, [], []⟩).pending =
      [⟨⟨8, by decide⟩, 0, 9, 100, 0⟩] := by
    decide +kernel
  obtain ⟨sys, hexec⟩ := Option.isSome_iff_exists.mp hsome
  have hrun := runs_mono (fun _ _ hp => of_decide_eq_true hp) (runs_execIf hexec)
  obtain ⟨h, -⟩ := sleeperlist_wakes hrun
  have hf := h.forward
  have hcount := h.count
  rw [hpending] at hf hcount
  refine ⟨sys, h.calls.trans ?_, h.freed.trans ?_, hf, hcount⟩
  · decide +kernel
  · decide +kernel

end Slightx
