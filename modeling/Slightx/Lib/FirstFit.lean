/-
  File:      Slightx/Lib/FirstFit.lean
  Subject:   The first run of free slots.

  Slots are numbered, `busy` says which are taken, and those from `total` on do not exist. First
  fit gives the lowest start of `n` free slots in a row:

  * `Room`, `FirstFit` -- the starts that fit, and the lowest one
  * `no_room_before` -- a slot in the way rules out every start it is in the way of, so a search
    may go on behind it
-/

namespace Slightx.Lib

section FirstFit

variable {busy : Nat → Bool} {total n start t i : Nat}

/-- The `n` slots from `start` on exist and are free. -/
def Room (busy : Nat → Bool) (total n start : Nat) : Prop :=
  ∀ i, i < n → start + i < total ∧ busy (start + i) = false

/-- The lowest start with room for `n` slots, `none` where there is no room. -/
def FirstFit (busy : Nat → Bool) (total n : Nat) : Option Nat → Prop
  | none => ∀ start, ¬ Room busy total n start
  | some start => Room busy total n start ∧ ∀ t, t < start → ¬ Room busy total n t

/-- There is one lowest start. -/
theorem firstFit_unique {r r' : Option Nat} (h : FirstFit busy total n r)
    (h' : FirstFit busy total n r') : r = r' := by
  cases r with
  | none =>
      cases r' with
      | none => rfl
      | some start => exact absurd h'.1 (h start)
  | some start =>
      cases r' with
      | none => exact absurd h.1 (h' start)
      | some start' =>
          rcases Nat.lt_trichotomy start start' with hlt | rfl | hlt
          · exact absurd h.1 (h'.2 start hlt)
          · rfl
          · exact absurd h'.1 (h.2 start' hlt)

theorem room_lt (h : Room busy total n start) (hn : 0 < n) : start < total := (h 0 hn).1

/-- **Behind a slot in the way**: no start up to it has room. -/
theorem no_room_before (hi : i < n) (hbusy : total ≤ start + i ∨ busy (start + i) = true)
    (hlo : start ≤ t) (hhi : t ≤ start + i) : ¬ Room busy total n t := by
  intro h
  obtain ⟨hlt, hfree⟩ := h (start + i - t) (by omega)
  rw [show t + (start + i - t) = start + i by omega] at hlt hfree
  rcases hbusy with hout | hbusy
  · omega
  · rw [hbusy] at hfree
    cases hfree

/-- Taken slots at either end of a range stay outside of a fit. -/
theorem room_between (h : Room busy total n start) (hn : 0 < n) (hfirst : busy 0 = true)
    (hlast : busy (total - 1) = true) : 0 < start ∧ start + n < total := by
  have hstart : start ≠ 0 := by
    rintro rfl
    have hfree := (h 0 hn).2
    rw [Nat.zero_add, hfirst] at hfree
    cases hfree
  obtain ⟨hlt, hfree⟩ := h (n - 1) (by omega)
  have hend : start + (n - 1) ≠ total - 1 := by
    intro he
    rw [he, hlast] at hfree
    cases hfree
  omega

end FirstFit

end Slightx.Lib
