/-
  File:      Slightx/Klibc/Timer.lean
  Subject:   Timers that can be paused.

  Source: klibc/chrono/timer.c.

  A timer does not add up what it measures. It keeps the instant it was started at, and each
  resume moves that instant on by the time of the pause, modulo 2^64:

  * `activeTime` -- what a timer should measure, from the history of its calls
  * `TimerInv` -- the instants encode it
  * `timerElapsedNs_active` -- so the elapsed time is the time not paused, after any run of calls
-/
import Slightx.Klibc.Core

namespace Slightx

open Lib

/-! ## 1. The calls -/

/-- `struct timer` without its clock: `time` below is what `get_time_ns` answers to the call. -/
structure Timer where
  startedAt : U64
  pausedAt : U64
  started : Bool
  paused : Bool
  deriving DecidableEq, Repr

def timerInit : Timer := { startedAt := 0, pausedAt := 0, started := false, paused := false }

def timerStart (time : U64) : Prog Fault Timer Unit :=
  set { startedAt := time, pausedAt := 0, started := true, paused := false : Timer }

def timerStop : Prog Fault Timer Unit :=
  set { startedAt := 0, pausedAt := 0, started := false, paused := false : Timer }

def timerPause (time : U64) : Prog Fault Timer Unit := do
  let self ← get
  assert (self.started = true) "self->started"
  assert (self.paused = false) "!self->paused"
  set { self with pausedAt := time, paused := true }

def timerResume (time : U64) : Prog Fault Timer Unit := do
  let self ← get
  assert (self.started = true) "self->started"
  assert (self.paused = true) "self->paused"
  let pauseDuration := time - self.pausedAt
  set { self with startedAt := self.startedAt + pauseDuration, pausedAt := 0, paused := false }

def timerElapsedNs (time : U64) : Prog Fault Timer U64 := do
  let self ← get
  assert (self.started = true) "self->started"
  if self.paused then return self.pausedAt - self.startedAt
  else return time - self.startedAt

inductive TimerCall where
  | start
  | stop
  | pause
  | resume
  deriving DecidableEq, Repr

def TimerCall.run (time : U64) : TimerCall → Prog Fault Timer Unit
  | .start => timerStart time
  | .stop => timerStop
  | .pause => timerPause time
  | .resume => timerResume time

/-! ## 2. What a timer measures -/

/-- The calls made so far with their times, the last one first. -/
abbrev TimerHistory := List (Nat × TimerCall)

/-- **The time up to `now`, since the last start, in which the timer was not paused.** -/
def activeTime : TimerHistory → (now : Nat) → Nat
  | [], _ => 0
  | (_, .stop) :: _, _ => 0
  | (t, .start) :: _, now => now - t
  | (t, .pause) :: hist, _ => activeTime hist t
  | (t, .resume) :: hist, now => activeTime hist t + (now - t)

/-- The timer runs, or it is paused. -/
inductive TimerPhase where
  | stopped
  | running
  | paused
  deriving DecidableEq, Repr

def phase : TimerHistory → TimerPhase
  | [] => .stopped
  | (_, .stop) :: _ => .stopped
  | (_, .start) :: _ => .running
  | (_, .pause) :: _ => .paused
  | (_, .resume) :: _ => .running

/-- No call was made after `now`. -/
def Past (hist : TimerHistory) (now : Nat) : Prop := ∀ e ∈ hist.head?, e.1 ≤ now

section Active

variable {hist : TimerHistory} {now now' : Nat}

theorem past_mono (h : Past hist now) (hle : now ≤ now') : Past hist now' :=
  fun e he => Nat.le_trans (h e he) hle

/-- While the timer runs, time is active time. -/
theorem activeTime_running (hp : phase hist = .running) (hpast : Past hist now)
    (hle : now ≤ now') : activeTime hist now' = activeTime hist now + (now' - now) := by
  cases hist with
  | nil => cases hp
  | cons e hist =>
      obtain ⟨t, call⟩ := e
      have ht : t ≤ now := hpast _ rfl
      cases call with
      | stop => cases hp
      | pause => cases hp
      | start =>
          show now' - t = now - t + (now' - now)
          omega
      | resume =>
          show activeTime hist t + (now' - t) = activeTime hist t + (now - t) + (now' - now)
          omega

/-- While it is paused, none is. -/
theorem activeTime_paused (hp : phase hist = .paused) :
    activeTime hist now' = activeTime hist now := by
  cases hist with
  | nil => cases hp
  | cons e hist =>
      obtain ⟨t, call⟩ := e
      cases call with
      | stop => cases hp
      | pause => rfl
      | start => cases hp
      | resume => cases hp

end Active

/-! ## 3. The invariant -/

/-- The clock `now` as `get_time_ns` answers it. -/
abbrev clockNs (now : Nat) : U64 := BitVec.ofNat 64 now

/-- **The start instant is as far back as the timer was active.** -/
structure TimerInv (hist : TimerHistory) (now : Nat) (timer : Timer) : Prop where
  past : Past hist now
  started : timer.started = true ↔ phase hist ≠ .stopped
  paused : timer.paused = true ↔ phase hist = .paused
  running : phase hist = .running → clockNs now - timer.startedAt = clockNs (activeTime hist now)
  halted : phase hist = .paused → timer.pausedAt - timer.startedAt = clockNs (activeTime hist now)

/-- The states of a timer under calls and a clock that never goes back. -/
inductive TimerRun : TimerHistory → Nat → Timer → Prop where
  | init (now : Nat) : TimerRun [] now timerInit
  | wait {hist : TimerHistory} {now now' : Nat} {timer : Timer} (h : TimerRun hist now timer)
      (hle : now ≤ now') : TimerRun hist now' timer
  | call {hist : TimerHistory} {now : Nat} {timer timer' : Timer} (h : TimerRun hist now timer)
      (call : TimerCall) (hrun : call.run (clockNs now) timer = .ok ((), timer')) :
      TimerRun ((now, call) :: hist) now timer'

section Runs

variable {hist : TimerHistory} {now now' : Nat} {timer timer' : Timer} {time : U64}

theorem wp_timerPause (Q : Unit → Timer → Prop) : wp (timerPause time) timer Q ↔
    timer.started = true ∧ timer.paused = false ∧
      Q () { timer with pausedAt := time, paused := true } := by
  unfold timerPause
  rw [wp_bind, wp_get, wp_bind, wp_assert, wp_bind, wp_assert, wp_set]

theorem wp_timerResume (Q : Unit → Timer → Prop) : wp (timerResume time) timer Q ↔
    timer.started = true ∧ timer.paused = true ∧
      Q () { timer with startedAt := timer.startedAt + (time - timer.pausedAt), pausedAt := 0,
                        paused := false } := by
  unfold timerResume
  rw [wp_bind, wp_get, wp_bind, wp_assert, wp_bind, wp_assert, wp_set]

theorem wp_timerElapsedNs (h : timer.started = true) (Q : U64 → Timer → Prop) :
    wp (timerElapsedNs time) timer Q ↔
      Q ((if timer.paused then timer.pausedAt else time) - timer.startedAt) timer := by
  unfold timerElapsedNs
  rw [wp_bind, wp_get, wp_bind, wp_assert]
  cases hp : timer.paused with
  | true =>
      rw [if_pos rfl, if_pos rfl, wp_pure]
      exact and_iff_right h
  | false =>
      rw [if_neg Bool.false_ne_true, if_neg Bool.false_ne_true, wp_pure]
      exact and_iff_right h

theorem clockNs_add (a b : Nat) : clockNs (a + b) = clockNs a + clockNs b := BitVec.ofNat_add a b

theorem clockNs_split (hle : now ≤ now') : clockNs now' = clockNs now + clockNs (now' - now) := by
  rw [← BitVec.ofNat_add]
  congr 1
  omega

theorem timerInv_init (now : Nat) : TimerInv [] now timerInit := by
  refine ⟨fun e he => ?_, ?_, ?_, fun h => ?_, fun h => ?_⟩
  · cases he
  · simp [timerInit, phase]
  · simp [timerInit, phase]
  · cases h
  · cases h

theorem timerInv_wait (h : TimerInv hist now timer) (hle : now ≤ now') :
    TimerInv hist now' timer := by
  refine ⟨past_mono h.past hle, h.started, h.paused, fun hp => ?_, fun hp => ?_⟩
  · rw [activeTime_running hp h.past hle, clockNs_add, ← h.running hp, clockNs_split hle]
    generalize clockNs now = a
    generalize clockNs (now' - now) = b
    bv_omega
  · rw [activeTime_paused hp, h.halted hp]

/-- **One call.** -/
theorem timerInv_call (h : TimerInv hist now timer) (call : TimerCall)
    (hrun : call.run (clockNs now) timer = .ok ((), timer')) :
    TimerInv ((now, call) :: hist) now timer' := by
  have hpast : ∀ c, Past ((now, c) :: hist) now := fun c e he => by
    cases he
    exact Nat.le_refl now
  have hwp : wp (call.run (clockNs now)) timer fun _ s => s = timer' := (wp_of_eq hrun).mpr rfl
  cases call with
  | start =>
      obtain rfl := (wp_set _ _ _).mp hwp
      refine ⟨hpast _, by simp [phase], by simp [phase], fun _ => ?_, fun hp => ?_⟩
      · show clockNs now - clockNs now = clockNs (now - now)
        rw [BitVec.sub_self, Nat.sub_self]
      · cases hp
  | stop =>
      obtain rfl := (wp_set _ _ _).mp hwp
      refine ⟨hpast _, by simp [phase], by simp [phase], fun hp => ?_, fun hp => ?_⟩
      · cases hp
      · cases hp
  | pause =>
      obtain ⟨hs, hp, rfl⟩ := (wp_timerPause _).mp hwp
      have hrunning : phase hist = .running := by
        have hns := h.started.mp hs
        have hnp : phase hist ≠ .paused := fun he => by
          rw [h.paused.mpr he] at hp
          cases hp
        cases hph : phase hist with
        | stopped => exact absurd hph hns
        | running => rfl
        | paused => exact absurd hph hnp
      refine ⟨hpast _, by simp [phase, hs], by simp [phase], fun hp' => ?_, fun _ => ?_⟩
      · cases hp'
      · exact h.running hrunning
  | resume =>
      obtain ⟨hs, hp, rfl⟩ := (wp_timerResume _).mp hwp
      refine ⟨hpast _, by simp [phase, hs], by simp [phase], fun _ => ?_, fun hp' => ?_⟩
      · have hhalted := h.halted (h.paused.mp hp)
        show clockNs now - (timer.startedAt + (clockNs now - timer.pausedAt)) =
          clockNs (activeTime hist now + (now - now))
        rw [Nat.sub_self, Nat.add_zero, ← hhalted]
        generalize clockNs now = a
        bv_omega
      · cases hp'

theorem timerInv_of_run (h : TimerRun hist now timer) : TimerInv hist now timer := by
  induction h with
  | init now => exact timerInv_init now
  | wait _ hle ih => exact timerInv_wait ih hle
  | call _ call hrun ih => exact timerInv_call ih call hrun

/-- **The elapsed time of a started timer is its active time**, modulo 2^64, after any run of calls;
    and while it is paused, no time that passes changes it. -/
theorem timerElapsedNs_active (h : TimerRun hist now timer) (hs : timer.started = true) :
    wp (timerElapsedNs (clockNs now)) timer
        (fun ns timer' => ns = clockNs (activeTime hist now) ∧ timer' = timer) ∧
      (timer.paused = true → ∀ now', now ≤ now' → wp (timerElapsedNs (clockNs now')) timer
        (fun ns timer' => ns = clockNs (activeTime hist now) ∧ timer' = timer)) := by
  have hinv := timerInv_of_run h
  refine ⟨(wp_timerElapsedNs hs _).mpr ⟨?_, rfl⟩, fun hp now' _ =>
    (wp_timerElapsedNs hs _).mpr ⟨?_, rfl⟩⟩
  · cases hp : timer.paused with
    | true =>
        rw [if_pos rfl]
        exact hinv.halted (hinv.paused.mp hp)
    | false =>
        rw [if_neg Bool.false_ne_true]
        refine hinv.running ?_
        cases hph : phase hist with
        | stopped => exact absurd hph (hinv.started.mp hs)
        | running => rfl
        | paused =>
            rw [hinv.paused.mpr hph] at hp
            cases hp
  · rw [if_pos hp]
    exact hinv.halted (hinv.paused.mp hp)

end Runs

/-- Started at 5, paused from 8 to 12: at 20 the timer has measured 11. -/
theorem timerElapsedNs_active_once :
    wp (timerElapsedNs (clockNs 20))
      { startedAt := 9, pausedAt := 0, started := true, paused := false } fun ns _ => ns = 11 := by
  have hrun : TimerRun [(12, .resume), (8, .pause), (5, .start)] 20
      { startedAt := 9, pausedAt := 0, started := true, paused := false } :=
    .wait (.call (.wait (.call (.wait (.call (.init 5) .start rfl) (by decide)) .pause rfl)
      (by decide)) .resume rfl) (by decide)
  exact wp_mono (timerElapsedNs_active hrun rfl).1 fun ns _ hns => hns.1

end Slightx
