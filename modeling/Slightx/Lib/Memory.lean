/-
  File:      Slightx/Lib/Memory.lean
  Subject:   Byte memory with little-endian 64-bit words.

  A memory is a byte for every address; a C object is a range of it. The facts are the frame
  facts a proof about C code asks for:

  * `load64_store64_same`, `load64_store64_ne` -- a word written is the word read, and a word
    that does not overlap it keeps its value;
  * `SameOff` -- two memories agree outside a set of addresses; writes state their footprint
    with it and the footprints compose (`sameOff_trans`);
  * `load64_fill` -- a word inside a zeroed range is zero.
-/
import Mathlib.Algebra.Group.Nat.Defs

namespace Slightx.Lib

abbrev Byte := BitVec 8

abbrev Word := BitVec 64

/-- A byte for every address. -/
abbrev Mem := Nat → Byte

/-! ## 1. Words -/

/-- The word at `a`, lowest byte first. -/
def load64 (m : Mem) (a : Nat) : Word :=
  m (a + 7) ++ m (a + 6) ++ m (a + 5) ++ m (a + 4) ++ m (a + 3) ++ m (a + 2) ++ m (a + 1) ++ m a

/-- `w` written at `a`, lowest byte first. -/
def store64 (m : Mem) (a : Nat) (w : Word) : Mem :=
  fun x => if a ≤ x ∧ x < a + 8 then w.extractLsb' (8 * (x - a)) 8 else m x

/-- The eight bytes of a word, put together again. -/
theorem extract_bytes_append (w : Word) :
    (w.extractLsb' 56 8 ++ w.extractLsb' 48 8 ++ w.extractLsb' 40 8 ++ w.extractLsb' 32 8 ++
      w.extractLsb' 24 8 ++ w.extractLsb' 16 8 ++ w.extractLsb' 8 8 ++ w.extractLsb' 0 8 : Word)
      = w := by
  repeat rw [BitVec.extractLsb'_append_extractLsb'_eq_extractLsb' (by rfl)]
  exact BitVec.extractLsb'_eq_self

/-- A word is read where its bytes stand. -/
theorem load64_of_bytes {m : Mem} {a : Nat} {w : Word}
    (h : ∀ k, k < 8 → m (a + k) = w.extractLsb' (8 * k) 8) : load64 m a = w := by
  unfold load64
  have h0 : m a = w.extractLsb' 0 8 := h 0 (by decide)
  rw [h 7 (by decide), h 6 (by decide), h 5 (by decide), h 4 (by decide), h 3 (by decide),
    h 2 (by decide), h 1 (by decide), h0]
  exact extract_bytes_append w

/-- A word is read where its bytes have been moved. -/
theorem load64_moved {m m' : Mem} {a b : Nat} (h : ∀ k, k < 8 → m' (b + k) = m (a + k)) :
    load64 m' b = load64 m a := by
  unfold load64
  have h0 : m' b = m a := h 0 (by decide)
  rw [h 7 (by decide), h 6 (by decide), h 5 (by decide), h 4 (by decide), h 3 (by decide),
    h 2 (by decide), h 1 (by decide), h0]

theorem load64_congr {m m' : Mem} {a : Nat} (h : ∀ k, k < 8 → m' (a + k) = m (a + k)) :
    load64 m' a = load64 m a :=
  load64_moved h

@[simp] theorem load64_store64_same (m : Mem) (a : Nat) (w : Word) :
    load64 (store64 m a w) a = w := by
  refine load64_of_bytes fun k hk => ?_
  simp only [store64]
  rw [if_pos (by omega)]
  congr 2
  omega

theorem load64_store64_ne {a b : Nat} (m : Mem) (w : Word) (h : b + 8 ≤ a ∨ a + 8 ≤ b) :
    load64 (store64 m a w) b = load64 m b := by
  refine load64_congr fun k hk => ?_
  simp only [store64]
  rw [if_neg (by omega)]

theorem load64_zero (a : Nat) : load64 (fun _ => 0) a = 0 :=
  load64_of_bytes fun k _ => by ext i hi; simp

/-! ## 2. Bytes and filled ranges -/

/-- `b` written at `a`. -/
def setByte (m : Mem) (a : Nat) (b : Byte) : Mem := fun x => if x = a then b else m x

@[simp] theorem setByte_same (m : Mem) (a : Nat) (b : Byte) : setByte m a b a = b := if_pos rfl

theorem setByte_ne {m : Mem} {a x : Nat} {b : Byte} (h : x ≠ a) : setByte m a b x = m x :=
  if_neg h

/-- `n` bytes at `a` set to `b`. -/
def fill (m : Mem) (a n : Nat) (b : Byte) : Mem :=
  fun x => if a ≤ x ∧ x < a + n then b else m x

theorem fill_in {m : Mem} {a n x : Nat} {b : Byte} (h : a ≤ x ∧ x < a + n) :
    fill m a n b x = b := by
  simp only [fill, if_pos h]

theorem fill_out {m : Mem} {a n x : Nat} {b : Byte} (h : ¬ (a ≤ x ∧ x < a + n)) :
    fill m a n b x = m x := by
  simp only [fill, if_neg h]

/-- Filling one byte more is filling and then writing the last byte. -/
theorem fill_succ (m : Mem) (a n : Nat) (b : Byte) :
    fill m a (n + 1) b = setByte (fill m a n b) (a + n) b := by
  funext x
  by_cases hx : x = a + n
  · subst hx
    rw [setByte_same, fill_in (by omega)]
  · rw [setByte_ne hx]
    by_cases hr : a ≤ x ∧ x < a + n
    · rw [fill_in (by omega), fill_in hr]
    · rw [fill_out (by omega), fill_out hr]

/-- A word inside a zeroed range is zero. -/
theorem load64_fill {m : Mem} {a n x : Nat} (hl : a ≤ x) (hr : x + 8 ≤ a + n) :
    load64 (fill m a n 0) x = 0 := by
  refine load64_of_bytes fun k hk => ?_
  rw [fill_in (by omega)]
  ext i hi
  simp

theorem load64_fill_out {m : Mem} {a n x : Nat} {b : Byte} (h : x + 8 ≤ a ∨ a + n ≤ x) :
    load64 (fill m a n b) x = load64 m x :=
  load64_congr fun k hk => fill_out (by omega)

/-! ## 3. Footprints -/

/-- The memories agree outside `S`. -/
def SameOff (S : Nat → Prop) (m m' : Mem) : Prop := ∀ x, ¬ S x → m' x = m x

theorem sameOff_refl (S : Nat → Prop) (m : Mem) : SameOff S m m := fun _ _ => rfl

theorem sameOff_trans {S : Nat → Prop} {m m' m'' : Mem} (h : SameOff S m m')
    (h' : SameOff S m' m'') : SameOff S m m'' :=
  fun x hx => (h' x hx).trans (h x hx)

theorem sameOff_mono {S T : Nat → Prop} {m m' : Mem} (h : SameOff S m m')
    (hST : ∀ x, S x → T x) : SameOff T m m' :=
  fun x hx => h x fun hs => hx (hST x hs)

theorem sameOff_store64 {S : Nat → Prop} {m : Mem} {a : Nat} {w : Word}
    (h : ∀ x, a ≤ x → x < a + 8 → S x) : SameOff S m (store64 m a w) := by
  intro x hx
  simp only [store64]
  rw [if_neg fun hr => hx (h x hr.1 hr.2)]

theorem sameOff_fill {S : Nat → Prop} {m : Mem} {a n : Nat} {b : Byte}
    (h : ∀ x, a ≤ x → x < a + n → S x) : SameOff S m (fill m a n b) :=
  fun x hx => fill_out fun hr => hx (h x hr.1 hr.2)

theorem load64_sameOff {S : Nat → Prop} {m m' : Mem} {a : Nat} (h : SameOff S m m')
    (ha : ∀ k, k < 8 → ¬ S (a + k)) : load64 m' a = load64 m a :=
  load64_congr fun k hk => h (a + k) (ha k hk)

end Slightx.Lib
