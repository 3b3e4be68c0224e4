/-
  File:      Slightx/Klibc/Bytes.lean
  Subject:   `memcpy`, and `memmove` between ranges that may overlap.

  Source: klibc/mem/bytes.c.

  * `moved` -- the memory after a copy, in terms of the one before it;
  * `wp_memcpy`, `copied_eq` -- `memcpy` makes that copy where the ranges lie apart
  * `wp_memmove` -- the loop goes up or down, away from the bytes it still has to read, so it makes
    that copy
  * `memmove_moves` -- the bytes of the target and the bytes outside of it
-/
import Slightx.Klibc.Core

namespace Slightx

open Lib

/-- `n` bytes at `src` copied to `dst`. -/
def moved (m : Mem) (dst src n : Nat) : Mem :=
  fun x => if dst ≤ x ∧ x < dst + n then m (src + (x - dst)) else m x

def memcpy (dst src : Uptr) (n : Usize) : Prog Fault Mem Uptr := do
  assert (dst ≠ 0) "dst != NULL"
  assert (src ≠ 0) "src != NULL"
  forUp n.toNat fun i => modify fun m => setByte m (dst.toNat + i) (m (src.toNat + i))
  return dst

def memmove (dst src : Uptr) (n : Usize) : Prog Fault Mem Uptr := do
  assert (dst ≠ 0) "dst != NULL"
  assert (src ≠ 0) "src != NULL"
  let _ ← (if dst < src then
      forUp n.toNat fun i => modify fun m => setByte m (dst.toNat + i) (m (src.toNat + i))
    else if src < dst then
      -- round `k` is the one with `i = n - k`
      forUp n.toNat fun k => modify fun m =>
        setByte m (dst.toNat + (n.toNat - k - 1)) (m (src.toNat + (n.toNat - k - 1)))
    else pure ())
  return dst

section Moved

variable {m : Mem} {dst src n x : Nat}

theorem moved_in (h : dst ≤ x ∧ x < dst + n) : moved m dst src n x = m (src + (x - dst)) := if_pos h

theorem moved_out (h : ¬ (dst ≤ x ∧ x < dst + n)) : moved m dst src n x = m x := if_neg h

/-- The last `k` bytes of the copy, made from the end of the range downwards. -/
theorem moved_down {k : Nat} (hlt : src < dst) (hk : k < n) :
    setByte (moved m (dst + (n - k)) (src + (n - k)) k) (dst + (n - k - 1))
        (moved m (dst + (n - k)) (src + (n - k)) k (src + (n - k - 1)))
      = moved m (dst + (n - (k + 1))) (src + (n - (k + 1))) (k + 1) := by
  have hsrc : ¬ (dst + (n - k) ≤ src + (n - k - 1) ∧ src + (n - k - 1) < dst + (n - k) + k) := by
    omega
  rw [moved_out hsrc]
  funext y
  by_cases hy : y = dst + (n - k - 1)
  · subst hy
    rw [setByte_same, moved_in (by omega)]
    congr 1
    omega
  · rw [setByte_ne hy]
    by_cases hin : dst + (n - k) ≤ y ∧ y < dst + (n - k) + k
    · rw [moved_in hin, moved_in (by omega)]
      congr 1
      omega
    · rw [moved_out hin, moved_out (by omega)]

theorem moved_up {k : Nat} (hsrc : ¬ (dst ≤ src + k ∧ src + k < dst + k)) :
    setByte (moved m dst src k) (dst + k) (moved m dst src k (src + k))
      = moved m dst src (k + 1) := by
  rw [moved_out hsrc]
  funext y
  by_cases hy : y = dst + k
  · subst hy
    rw [setByte_same, moved_in (by omega)]
    congr 1
    omega
  · rw [setByte_ne hy]
    by_cases hin : dst ≤ y ∧ y < dst + k
    · rw [moved_in hin, moved_in (by omega)]
    · rw [moved_out hin, moved_out (by omega)]

theorem moved_zero : moved m dst src 0 = m := funext fun _ => moved_out (by omega)

theorem moved_self : moved m dst dst n = m := by
  funext y
  by_cases hin : dst ≤ y ∧ y < dst + n
  · rw [moved_in hin]
    congr 1
    omega
  · rw [moved_out hin]

/-- The bytes copied one after the other, from the first. -/
def copied (m : Mem) (dst src n : Nat) : Mem :=
  runUp n (fun i m => setByte m (dst + i) (m (src + i))) m

/-- A byte is read before the copy reaches it unless the target begins inside the source. -/
theorem copied_eq (h : dst ≤ src ∨ src + n ≤ dst) : copied m dst src n = moved m dst src n := by
  induction n with
  | zero => exact moved_zero.symm
  | succ k ih =>
      have hk : copied m dst src k = moved m dst src k := ih (by omega)
      unfold copied at hk ⊢
      rw [runUp, hk, moved_up (by omega)]

end Moved

theorem wp_copyLoop {dst src : Nat} (n : Nat) (m : Mem) (Q : Unit → Mem → Prop) :
    wp (forUp n fun i => modify fun m => setByte m (dst + i) (m (src + i)) : Prog Fault Mem Unit)
      m Q ↔ Q () (copied m dst src n) := by
  rw [wp_forUp_modify]
  rfl

/-- The last `k` bytes of the copy, written by the loop that goes down. -/
theorem runUp_down {m : Mem} {dst src n k : Nat} (hlt : src < dst) (hk : k ≤ n) :
    runUp k (fun k m => setByte m (dst + (n - k - 1)) (m (src + (n - k - 1)))) m =
      moved m (dst + (n - k)) (src + (n - k)) k := by
  induction k with
  | zero => exact moved_zero.symm
  | succ k ih => rw [runUp, ih (Nat.le_of_succ_le hk), moved_down hlt hk]

theorem wp_copyDown {dst src : Nat} (hlt : src < dst) (n : Nat) (m : Mem)
    (Q : Unit → Mem → Prop) :
    wp (forUp n fun k => modify fun m =>
      setByte m (dst + (n - k - 1)) (m (src + (n - k - 1))) : Prog Fault Mem Unit) m Q ↔
        Q () (moved m dst src n) := by
  rw [wp_forUp_modify, runUp_down hlt (Nat.le_refl n), Nat.sub_self]
  rfl

theorem wp_memcpy {dst src : Uptr} (hd : dst ≠ 0) (hs : src ≠ 0) (n : Usize) (m : Mem)
    (Q : Uptr → Mem → Prop) :
    wp (memcpy dst src n) m Q ↔ Q dst (copied m dst.toNat src.toNat n.toNat) := by
  unfold memcpy
  rw [wp_bind, wp_assert, wp_bind, wp_assert, wp_bind, wp_copyLoop, wp_pure]
  exact ⟨fun h => h.2.2, fun h => ⟨hd, hs, h⟩⟩

/-- **`memmove` copies**, whichever range is the lower one. -/
theorem wp_memmove {dst src : Uptr} (hd : dst ≠ 0) (hs : src ≠ 0) (n : Usize) (m : Mem)
    (Q : Uptr → Mem → Prop) :
    wp (memmove dst src n) m Q ↔ Q dst (moved m dst.toNat src.toNat n.toNat) := by
  unfold memmove
  rw [wp_bind, wp_assert, wp_bind, wp_assert, wp_bind]
  have hguard : ∀ P : Prop, (dst ≠ 0 ∧ src ≠ 0 ∧ P ↔ P) := fun P =>
    ⟨fun h => h.2.2, fun h => ⟨hd, hs, h⟩⟩
  rw [hguard]
  split
  · rename_i hlt
    have hlt : dst.toNat < src.toNat := hlt
    rw [wp_copyLoop, copied_eq (.inl (Nat.le_of_lt hlt)), wp_pure]
  · rename_i hnlt
    split
    · rename_i hlt
      have hlt : src.toNat < dst.toNat := hlt
      rw [wp_copyDown hlt, wp_pure]
    · rename_i hngt
      have he : dst.toNat = src.toNat := by
        rw [BitVec.lt_def] at hnlt hngt
        omega
      rw [wp_pure, wp_pure, he, moved_self]

/-- **What `memmove` leaves**: in the target the bytes that the source had, also where the two
    overlap, and every other byte as it was. -/
theorem memmove_moves {dst src : Uptr} {n : Usize} (hd : dst ≠ 0) (hs : src ≠ 0)
    (hdst : dst.toNat + n.toNat ≤ 2 ^ 64) (hsrc : src.toNat + n.toNat ≤ 2 ^ 64) (m : Mem) :
    wp (memmove dst src n) m fun p m' => p = dst ∧
      (∀ i, i < n.toNat →
        m' (dst + BitVec.ofNat 64 i).toNat = m (src + BitVec.ofNat 64 i).toNat) ∧
      ∀ x, ¬ (dst.toNat ≤ x ∧ x < dst.toNat + n.toNat) → m' x = m x := by
  rw [wp_memmove hd hs]
  refine ⟨rfl, fun i hi => ?_, fun x hx => moved_out hx⟩
  have haddr : ∀ p : Uptr, p.toNat + n.toNat ≤ 2 ^ 64 →
      (p + BitVec.ofNat 64 i).toNat = p.toNat + i := fun p hp => by
    rw [BitVec.toNat_add, ofNat_toNat_lt (by omega)]
    exact Nat.mod_eq_of_lt (by omega)
  rw [haddr dst hdst, haddr src hsrc, moved_in ⟨by omega, by omega⟩, Nat.add_sub_cancel_left]

/-- Four bytes moved up by two, in a memory where every byte is the low one of its address. -/
theorem memmove_moves_overlapping :
    wp (memmove 0x1002 0x1000 4) (BitVec.ofNat 8) fun _ m =>
      m 0x1001 = 1 ∧ m 0x1002 = 0 ∧ m 0x1003 = 1 ∧ m 0x1004 = 2 ∧ m 0x1005 = 3 ∧ m 0x1006 = 6 := by
  refine wp_mono (@memmove_moves 0x1002 0x1000 4 (by decide) (by decide) (by decide) (by decide)
    (BitVec.ofNat 8)) fun p m h => ?_
  obtain ⟨-, hin, hout⟩ := h
  exact ⟨hout 0x1001 (by decide), hin 0 (by decide), hin 1 (by decide), hin 2 (by decide),
    hin 3 (by decide), hout 0x1006 (by decide)⟩

end Slightx
