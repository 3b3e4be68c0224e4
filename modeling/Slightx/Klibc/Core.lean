/-
  File:      Slightx/Klibc/Core.lean
  Subject:   The words of klibc: machine integers, `panic`, assertions, alignment, spans.

  Sources: klibc/types.h, klibc/assert.h, klibc/mem/align.c, klibc/mem/span.c.

  A machine word is a `BitVec 64`, so sums and products wrap as in C. A program that reaches
  `panic` returns to nobody: it stops with a `Fault`. A failing `assert` calls `panic` too, but
  keeps a constructor of its own, and so does a page fault of kernel code, which ends in the
  halting branch of `pagefault_handler`. Assertions are those of a build without `NDEBUG`, the
  build the makefiles select; `assert_release` is checked in every build.
-/
import Slightx.Lib.Outcome
import Slightx.Lib.Memory

namespace Slightx

open Lib

/-- `u8`, a byte. -/
abbrev U8 := BitVec 8

/-- `u16` -/
abbrev U16 := BitVec 16

/-- `u32` -/
abbrev U32 := BitVec 32

/-- `u64`, a machine word. -/
abbrev U64 := BitVec 64

/-- `usize`, the size of an object. -/
abbrev Usize := U64

/-- `uptr`, an address as a number. -/
abbrev Uptr := U64

/-! ## 1. Faults and assertions -/

/-- The ways kernel code stops for good. -/
inductive Fault where
  /-- `panic(text)` -/
  | panic (text : String)
  /-- a failing `assert(cond)` or `assert_release(cond)`, which call `panic` -/
  | assertion (cond : String)
  /-- an access of kernel code to an address without a translation -/
  | pageFault (addr : U64)
  deriving DecidableEq, Repr

section Asserts

variable {σ α : Type}

/-- `panic(text)` does not return. -/
def panic (text : String) : Prog Fault σ α := throw (.panic text)

/-- `assert(cond)`, with the text of the condition. -/
def assert (cond : Prop) [Decidable cond] (text : String) : Prog Fault σ Unit :=
  if cond then pure () else throw (.assertion text)

/-- `assert_release(cond)`, checked in every build. -/
def assertRelease (cond : Prop) [Decidable cond] (text : String) : Prog Fault σ Unit :=
  if cond then pure () else throw (.assertion text)

@[simp] theorem wp_panic (text : String) (s : σ) (Q : α → σ → Prop) :
    wp (panic text : Prog Fault σ α) s Q ↔ False :=
  wp_throw _ _ _

@[simp] theorem wp_assert (cond : Prop) [Decidable cond] (text : String) (s : σ)
    (Q : Unit → σ → Prop) : wp (assert cond text) s Q ↔ cond ∧ Q () s := by
  unfold assert
  split
  · rename_i h
    simp [h]
  · rename_i h
    simp [h]

@[simp] theorem wp_assertRelease (cond : Prop) [Decidable cond] (text : String) (s : σ)
    (Q : Unit → σ → Prop) : wp (assertRelease cond text) s Q ↔ cond ∧ Q () s :=
  wp_assert cond text s Q

@[simp] theorem ends_panic (text : String) (s : σ) (Q : α → σ → Prop) (E : Fault → Prop) :
    ends (panic text : Prog Fault σ α) s Q E ↔ E (.panic text) :=
  ends_throw _ _ _ _

/-- An assertion that holds. -/
theorem ends_assert {cond : Prop} [Decidable cond] (h : cond) (text : String) (s : σ)
    (Q : Unit → σ → Prop) (E : Fault → Prop) : ends (assert cond text) s Q E ↔ Q () s := by
  unfold assert
  rw [if_pos h]
  exact ends_pure _ _ _ _

theorem ends_assertRelease {cond : Prop} [Decidable cond] (h : cond) (text : String) (s : σ)
    (Q : Unit → σ → Prop) (E : Fault → Prop) : ends (assertRelease cond text) s Q E ↔ Q () s :=
  ends_assert h text s Q E

end Asserts

/-! ## 2. Alignment -/

/-- A power of two, or zero. -/
def isAlignmentValid (alignment : Usize) : Bool := alignment &&& (alignment - 1) == 0

/-- Is `ptr` a multiple of `alignment`? -/
def isPtrAligned (ptr : Uptr) (alignment : Usize) : Bool := ptr % alignment == 0

/-- The next multiple of `alignment`; the sum may wrap. -/
def alignSizeUp (size alignment : Usize) : Usize :=
  if size % alignment ≠ 0 then size + (alignment - size % alignment) else size

/-- The next address that is a multiple of `alignment`; the sum may wrap. -/
def alignPtrUp (ptr : Uptr) (alignment : Usize) : Uptr :=
  if ptr % alignment ≠ 0 then ptr + (alignment - ptr % alignment) else ptr

/-- The last multiple of `alignment` up to `ptr`. -/
def alignPtrDown (ptr : Uptr) (alignment : Usize) : Uptr :=
  if ptr % alignment ≠ 0 then ptr - ptr % alignment else ptr

theorem ofNat_toNat_lt {n : Nat} (h : n < 2 ^ 64) : (BitVec.ofNat 64 n).toNat = n := by
  rw [BitVec.toNat_ofNat, Nat.mod_eq_of_lt h]

/-- What rounding `n` up to a multiple of `a` adds. -/
def gap (n a : Nat) : Nat := if n % a = 0 then 0 else a - n % a

theorem gap_lt (n : Nat) {a : Nat} (ha : 0 < a) : gap n a < a := by
  unfold gap
  split <;> omega

theorem dvd_add_gap (n : Nat) {a : Nat} (ha : 0 < a) : a ∣ n + gap n a := by
  have hdm : a * (n / a) + n % a = n := Nat.div_add_mod n a
  have hlt : n % a < a := Nat.mod_lt _ ha
  unfold gap
  split
  · rename_i h0
    exact Nat.dvd_of_mod_eq_zero h0
  · refine ⟨n / a + 1, ?_⟩
    rw [Nat.mul_add, Nat.mul_one]
    omega

/-- Rounding up, as machine words do it. -/
theorem toNat_alignSizeUp_gap {size alignment : Usize} (ha : 0 < alignment.toNat) :
    (alignSizeUp size alignment).toNat =
      (size.toNat + gap size.toNat alignment.toNat) % 2 ^ 64 := by
  have hlt : size.toNat % alignment.toNat < alignment.toNat := Nat.mod_lt _ ha
  have hmod : (size % alignment).toNat = size.toNat % alignment.toNat := BitVec.toNat_umod
  have hzero : size % alignment = 0 ↔ size.toNat % alignment.toNat = 0 := by
    rw [← hmod]
    exact ⟨fun h => by rw [h]; rfl, fun h => BitVec.eq_of_toNat_eq h⟩
  unfold alignSizeUp gap
  split
  · rename_i hne
    rw [if_neg (fun h0 => hne (hzero.mpr h0)), BitVec.toNat_add,
      BitVec.toNat_sub_of_le (by rw [BitVec.le_def, hmod]; omega), hmod]
  · rename_i he
    rw [if_pos (hzero.mp (Classical.not_not.mp he)), Nat.add_zero, Nat.mod_eq_of_lt size.isLt]

theorem toNat_alignPtrUp_gap {ptr : Uptr} {alignment : Usize} (ha : 0 < alignment.toNat) :
    (alignPtrUp ptr alignment).toNat = (ptr.toNat + gap ptr.toNat alignment.toNat) % 2 ^ 64 :=
  toNat_alignSizeUp_gap ha

theorem add_gap (n : Nat) {a : Nat} (ha : 0 < a) : n + gap n a = (n + (a - 1)) / a * a := by
  obtain ⟨q, hq⟩ := dvd_add_gap n ha
  have hlt := gap_lt n ha
  have hdiv : (n + (a - 1)) / a = q := by
    apply Nat.div_eq_of_lt_le
    · rw [Nat.mul_comm]
      omega
    · rw [Nat.add_mul, Nat.one_mul, Nat.mul_comm]
      omega
  rw [hdiv, hq, Nat.mul_comm]

/-- Rounding up, where the rounded size is still a size. -/
theorem toNat_alignSizeUp {size alignment : Usize} (ha : 0 < alignment.toNat)
    (h : size.toNat + alignment.toNat ≤ 2 ^ 64) :
    (alignSizeUp size alignment).toNat =
      (size.toNat + (alignment.toNat - 1)) / alignment.toNat * alignment.toNat := by
  have hlt := gap_lt size.toNat ha
  rw [toNat_alignSizeUp_gap ha, Nat.mod_eq_of_lt (by omega), add_gap _ ha]

theorem toNat_alignPtrDown (ptr : Uptr) (alignment : Usize) :
    (alignPtrDown ptr alignment).toNat = ptr.toNat - ptr.toNat % alignment.toNat := by
  have hmod : (ptr % alignment).toNat = ptr.toNat % alignment.toNat := BitVec.toNat_umod
  unfold alignPtrDown
  split
  · rw [BitVec.toNat_sub_of_le (by rw [BitVec.le_def, hmod]; exact Nat.mod_le _ _), hmod]
  · rename_i he
    have h0 : ptr.toNat % alignment.toNat = 0 := by
      rw [← hmod, Classical.not_not.mp he]
      rfl
    omega

/-! ## 3. Spans -/

/-- Bytes in memory: where they begin, and how many. -/
structure Span where
  data : Uptr
  size : Usize
  deriving DecidableEq, Repr

/-- The span of no bytes. -/
def spanNull : Span := { data := 0, size := 0 }

section Spans

variable {σ : Type}

/-- A span is not empty and not at the null pointer. -/
def makeSpan (data : Uptr) (size : Usize) : Prog Fault σ Span := do
  assert (data ≠ 0 ∧ 0 < size) "data != NULL && size > 0"
  return { data, size }

/-- `const_span` differs from `span` in the pointer's type only. -/
def makeConstSpan (data : Uptr) (size : Usize) : Prog Fault σ Span := do
  assert (data ≠ 0 ∧ 0 < size) "data != NULL && size > 0"
  return { data, size }

theorem wp_makeSpan {s : σ} (data : Uptr) (size : Usize) (Q : Span → σ → Prop) :
    wp (makeSpan data size) s Q ↔ (data ≠ 0 ∧ 0 < size) ∧ Q ⟨data, size⟩ s := by
  unfold makeSpan
  rw [wp_bind, wp_assert, wp_pure]

theorem wp_makeConstSpan {s : σ} (data : Uptr) (size : Usize) (Q : Span → σ → Prop) :
    wp (makeConstSpan data size) s Q ↔ (data ≠ 0 ∧ 0 < size) ∧ Q ⟨data, size⟩ s := by
  unfold makeConstSpan
  rw [wp_bind, wp_assert, wp_pure]

end Spans

end Slightx
