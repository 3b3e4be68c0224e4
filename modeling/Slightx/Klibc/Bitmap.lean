/-
  File:      Slightx/Klibc/Bitmap.lean
  Subject:   `memset` and the bitmap over a byte buffer.

  Sources: klibc/mem/bytes.c (`memset`), klibc/collections/bitmap.c.

  The bitmap of the source is a buffer of bytes, bit `i` being bit `7 - i % 8` of byte `i / 8`.
  `Bitmap.bit` reads that bit out of a memory; the three operations are characterised by it:

  * `wp_bitmapIsset` -- the test answers `Bitmap.bit` and refuses a bit beyond the buffer;
  * `wp_bitmapSet`, `wp_bitmapClear` -- the memory after them is `Bitmap.withBit`, whose bits are
    the old ones except the one written (`bit_withBit`);
  * `bit_sameOff` -- a write outside the buffer leaves every bit of it alone;
  * `bitmap_history` -- after every history a bit is what the last operation on it made of it.

  Bit numbers are natural numbers: the sums the callers form reach the release assertion of the
  operation before they could wrap.
-/
import Slightx.Klibc.Core

namespace Slightx

open Lib

/-! ## 1. `memset` -/

def memset (dst : Uptr) (c : U8) (n : Usize) : Prog Fault Mem Uptr := do
  assert (dst ≠ 0) "dst != NULL"
  forUp n.toNat fun i => modify fun m => setByte m (dst.toNat + i) c
  return dst

/-- The byte loop fills the range. -/
theorem runUp_setByte (n a : Nat) (c : U8) (m : Mem) :
    runUp n (fun i m => setByte m (a + i) c) m = fill m a n c := by
  induction n with
  | zero =>
      funext x
      rw [fill_out (by omega)]
      rfl
  | succ n ih => rw [runUp, ih, fill_succ]

@[simp] theorem wp_memset (dst : Uptr) (c : U8) (n : Usize) (m : Mem) (Q : Uptr → Mem → Prop) :
    wp (memset dst c n) m Q ↔ dst ≠ 0 ∧ Q dst (fill m dst.toNat n.toNat c) := by
  unfold memset
  rw [wp_bind, wp_assert, wp_bind, wp_forUp_modify, wp_pure, runUp_setByte]

/-! ## 2. The bitmap and its bits -/

structure Bitmap where
  buffer : Span
  deriving DecidableEq, Repr

namespace Bitmap

variable (self : Bitmap)

/-- Bit `i` of the buffer as the memory `m` holds it. -/
def bit (m : Mem) (i : Nat) : Bool :=
  (m (self.buffer.data.toNat + i / 8)).getLsbD (7 - i % 8)

/-- The memory with bit `i` of the buffer set to `b`. -/
def withBit (m : Mem) (i : Nat) (b : Bool) : Mem :=
  let a := self.buffer.data.toNat + i / 8
  let bitmask := 0b10000000#8 >>> (i % 8)
  setByte m a (if b then m a ||| bitmask else m a &&& ~~~bitmask)

/-- The buffer the assertions of the operations ask for. -/
def Valid : Prop := self.buffer.data ≠ 0 ∧ 0 < self.buffer.size

instance : Decidable self.Valid := inferInstanceAs (Decidable (_ ∧ _))

/-- The addresses of the buffer. -/
def Storage (x : Nat) : Prop :=
  self.buffer.data.toNat ≤ x ∧ x < self.buffer.data.toNat + self.buffer.size.toNat

end Bitmap

/-- The mask of the source is one bit. -/
theorem bitmask_eq_twoPow {k : Nat} (hk : k < 8) :
    (0b10000000#8 >>> k) = BitVec.twoPow 8 (7 - k) := by
  have h : ∀ j : Fin 8, (0b10000000#8 >>> j.val) = BitVec.twoPow 8 (7 - j.val) := by decide
  exact h ⟨k, hk⟩

/-- Comparing with the mask tests that bit. -/
theorem and_bitmask_beq (x : U8) {k : Nat} (hk : k < 8) :
    (x &&& (0b10000000#8 >>> k) == 0b10000000#8 >>> k) = x.getLsbD (7 - k) := by
  rw [bitmask_eq_twoPow hk, BitVec.and_twoPow]
  have hne : (0#8 == BitVec.twoPow 8 (7 - k)) = false := by
    have h : ∀ j : Fin 8, (0#8 == BitVec.twoPow 8 (7 - j.val)) = false := by decide
    exact h ⟨k, hk⟩
  cases x.getLsbD (7 - k) with
  | true => simp
  | false => simpa using hne

theorem getLsbD_or_bitmask (x : U8) {k j : Nat} (hk : k < 8) (hj : j < 8) :
    (x ||| 0b10000000#8 >>> k).getLsbD (7 - j) = (decide (j = k) || x.getLsbD (7 - j)) := by
  rw [bitmask_eq_twoPow hk, BitVec.getLsbD_or, BitVec.getLsbD_twoPow, Bool.or_comm]
  congr 1
  have h : ((7 - k < 8) : Bool) = true := by simp; omega
  rw [h, Bool.true_and]
  exact decide_eq_decide.mpr ⟨fun e => by omega, fun e => by omega⟩

theorem getLsbD_and_bitmask (x : U8) {k j : Nat} (hk : k < 8) (hj : j < 8) :
    (x &&& ~~~(0b10000000#8 >>> k)).getLsbD (7 - j) = (!decide (j = k) && x.getLsbD (7 - j)) := by
  have hlt : (decide (7 - j < 8)) = true := by simp; omega
  have hkt : (decide (7 - k < 8)) = true := by simp; omega
  rw [bitmask_eq_twoPow hk, BitVec.getLsbD_and, BitVec.getLsbD_not, BitVec.getLsbD_twoPow,
    Bool.and_comm, hlt, hkt, Bool.true_and, Bool.true_and]
  congr 2
  exact decide_eq_decide.mpr ⟨fun e => by omega, fun e => by omega⟩

namespace Bitmap

variable {self : Bitmap}

/-- **The bit written is the one read; every other bit keeps its value.** -/
theorem bit_withBit (m : Mem) (i j : Nat) (b : Bool) :
    self.bit (self.withBit m i b) j = if i = j then b else self.bit m j := by
  unfold bit withBit
  by_cases hbyte : i / 8 = j / 8
  · rw [hbyte, setByte_same]
    have hi : i % 8 < 8 := Nat.mod_lt _ (by decide)
    have hj : j % 8 < 8 := Nat.mod_lt _ (by decide)
    have hij : (j % 8 = i % 8) ↔ i = j := by omega
    cases b with
    | true =>
        rw [if_pos rfl, getLsbD_or_bitmask _ hi hj]
        by_cases e : i = j
        · simp [e]
        · simp [e, hij]
    | false =>
        rw [if_neg (by simp), getLsbD_and_bitmask _ hi hj]
        by_cases e : i = j
        · simp [e]
        · simp [e, hij]
  · rw [setByte_ne (by omega), if_neg (fun e : i = j => hbyte (by rw [e]))]

/-- A write outside the buffer leaves every bit of it alone. -/
theorem bit_sameOff {S : Nat → Prop} {m m' : Mem} (h : SameOff S m m') {i : Nat}
    (hS : ¬ S (self.buffer.data.toNat + i / 8)) : self.bit m' i = self.bit m i := by
  unfold bit
  rw [h _ hS]

/-- The bits after a loop that writes bit `g i` for every `i < n` that meets `c`. -/
theorem bit_runUp_withBit (c : Nat → Prop) [DecidablePred c] (g : Nat → Nat) (b : Bool) (n : Nat)
    (m : Mem) (j : Nat) :
    self.bit (runUp n (fun i m => if c i then self.withBit m (g i) b else m) m) j =
      if ∃ i, i < n ∧ c i ∧ g i = j then b else self.bit m j := by
  induction n with
  | zero =>
      rw [if_neg fun h => by obtain ⟨i, hi, _⟩ := h; exact Nat.not_lt_zero i hi]
      rfl
  | succ n ih =>
      have hsplit : (∃ i, i < n + 1 ∧ c i ∧ g i = j) ↔
          (c n ∧ g n = j) ∨ ∃ i, i < n ∧ c i ∧ g i = j := by
        constructor
        · intro h
          obtain ⟨i, hi, hc⟩ := h
          rcases Nat.lt_succ_iff_lt_or_eq.mp hi with hi | rfl
          · exact Or.inr ⟨i, hi, hc⟩
          · exact Or.inl hc
        · intro h
          rcases h with h | ⟨i, hi, hc⟩
          · exact ⟨n, Nat.lt_succ_self n, h⟩
          · exact ⟨i, Nat.lt_succ_of_lt hi, hc⟩
      rw [runUp]
      by_cases hc : c n
      · rw [if_pos hc, bit_withBit, ih]
        by_cases hg : g n = j
        · rw [if_pos hg, if_pos (hsplit.mpr (Or.inl ⟨hc, hg⟩))]
        · simp only [hsplit, hg, and_false, false_or, if_false]
      · rw [if_neg hc, ih]
        simp only [hsplit, hc, false_and, false_or]

end Bitmap

/-! ## 3. The operations -/

def bitmapInit (buffer : Span) : Prog Fault Mem Bitmap := do
  let _ ← (if buffer.data ≠ 0 ∧ 0 < buffer.size then memset buffer.data 0 buffer.size
    else pure buffer.data)
  return { buffer }

def bitmapIsset (self : Bitmap) (bit : Nat) : Prog Fault Mem Bool := do
  assert (self.buffer.data ≠ 0 ∧ 0 < self.buffer.size)
    "self->buffer.data != NULL && self->buffer.size > 0"
  let byteIndex := bit / 8
  let bitmask := 0b10000000#8 >>> (bit % 8)
  assertRelease (byteIndex < self.buffer.size.toNat) "byte_index < self->buffer.size"
  let base ← get
  return base (self.buffer.data.toNat + byteIndex) &&& bitmask == bitmask

def bitmapSet (self : Bitmap) (bit : Nat) : Prog Fault Mem Unit := do
  assert (self.buffer.data ≠ 0 ∧ 0 < self.buffer.size)
    "self->buffer.data != NULL && self->buffer.size > 0"
  let byteIndex := bit / 8
  let bitmask := 0b10000000#8 >>> (bit % 8)
  assertRelease (byteIndex < self.buffer.size.toNat) "byte_index < self->buffer.size"
  modify fun base =>
    let a := self.buffer.data.toNat + byteIndex
    setByte base a (base a ||| bitmask)

def bitmapClear (self : Bitmap) (bit : Nat) : Prog Fault Mem Unit := do
  assert (self.buffer.data ≠ 0 ∧ 0 < self.buffer.size)
    "self->buffer.data != NULL && self->buffer.size > 0"
  let byteIndex := bit / 8
  let bitmask := 0b10000000#8 >>> (bit % 8)
  assertRelease (byteIndex < self.buffer.size.toNat) "byte_index < self->buffer.size"
  modify fun base =>
    let a := self.buffer.data.toNat + byteIndex
    setByte base a (base a &&& ~~~bitmask)

theorem wp_bitmapInit {buffer : Span} (hv : (⟨buffer⟩ : Bitmap).Valid) (m : Mem)
    (Q : Bitmap → Mem → Prop) :
    wp (bitmapInit buffer) m Q ↔ Q ⟨buffer⟩ (fill m buffer.data.toNat buffer.size.toNat 0) := by
  unfold bitmapInit
  have hc : buffer.data ≠ 0 ∧ 0 < buffer.size := hv
  rw [wp_bind, if_pos hc, wp_memset, wp_pure]
  exact ⟨fun h => h.2, fun h => ⟨hv.1, h⟩⟩

@[simp] theorem wp_bitmapIsset (self : Bitmap) (i : Nat) (m : Mem) (Q : Bool → Mem → Prop) :
    wp (bitmapIsset self i) m Q ↔
      self.Valid ∧ i / 8 < self.buffer.size.toNat ∧ Q (self.bit m i) m := by
  unfold bitmapIsset
  simp only [wp_bind, wp_assert, wp_assertRelease, wp_get, wp_pure,
    and_bitmask_beq _ (Nat.mod_lt i (by decide : 0 < 8))]
  exact Iff.rfl

@[simp] theorem wp_bitmapSet (self : Bitmap) (i : Nat) (m : Mem) (Q : Unit → Mem → Prop) :
    wp (bitmapSet self i) m Q ↔
      self.Valid ∧ i / 8 < self.buffer.size.toNat ∧ Q () (self.withBit m i true) := by
  unfold bitmapSet
  simp only [wp_bind, wp_assert, wp_assertRelease, wp_modify]
  exact Iff.rfl

@[simp] theorem wp_bitmapClear (self : Bitmap) (i : Nat) (m : Mem) (Q : Unit → Mem → Prop) :
    wp (bitmapClear self i) m Q ↔
      self.Valid ∧ i / 8 < self.buffer.size.toNat ∧ Q () (self.withBit m i false) := by
  unfold bitmapClear
  simp only [wp_bind, wp_assert, wp_assertRelease, wp_modify]
  exact Iff.rfl

/-! ## 4. Histories -/

inductive BitmapOp where
  | set (bit : Nat)
  | clear (bit : Nat)
  deriving DecidableEq, Repr

def BitmapOp.bit : BitmapOp → Nat
  | set bit => bit
  | clear bit => bit

/-- Whether the operation leaves a one. -/
def BitmapOp.isSet : BitmapOp → Bool
  | set _ => true
  | clear _ => false

def BitmapOp.run (self : Bitmap) : BitmapOp → Prog Fault Mem Unit
  | set bit => bitmapSet self bit
  | clear bit => bitmapClear self bit

def runBitmapOps (self : Bitmap) : List BitmapOp → Prog Fault Mem Unit
  | [] => pure ()
  | op :: ops => do
      op.run self
      runBitmapOps self ops

/-- The last of the operations on bit `i` is a set. -/
def LastSet (i : Nat) (ops : List BitmapOp) : Prop :=
  ∃ before after, ops = before ++ .set i :: after ∧ ∀ op ∈ after, op.bit ≠ i

section Last

variable {i : Nat} {ops : List BitmapOp} {op : BitmapOp}

/-- An operation on the bit is the set of it, or the clear. -/
theorem isSet_iff (hbit : op.bit = i) : op.isSet = true ↔ op = .set i := by
  subst hbit
  cases op with
  | set bit => exact ⟨fun _ => rfl, fun _ => rfl⟩
  | clear bit => exact iff_of_false Bool.false_ne_true BitmapOp.noConfusion

theorem lastSet_nil : ¬ LastSet i [] := by
  rintro ⟨before, after, h, -⟩
  exact List.append_ne_nil_of_right_ne_nil before (List.cons_ne_nil _ after) h.symm

theorem lastSet_cons : LastSet i (op :: ops) ↔
    LastSet i ops ∨ op = .set i ∧ ∀ o ∈ ops, o.bit ≠ i := by
  constructor
  · rintro ⟨before, after, h, hafter⟩
    cases before with
    | nil =>
        cases h
        exact .inr ⟨rfl, hafter⟩
    | cons b before =>
        cases h
        exact .inl ⟨before, after, rfl, hafter⟩
  · rintro (⟨before, after, rfl, hafter⟩ | ⟨rfl, hafter⟩)
    · exact ⟨op :: before, after, rfl, hafter⟩
    · exact ⟨[], ops, rfl, hafter⟩

/-- Only the operations on the bit count. -/
theorem lastSet_filter : LastSet i ops ↔ LastSet i (ops.filter fun op => op.bit = i) := by
  induction ops with
  | nil => exact Iff.rfl
  | cons op ops ih =>
      have hnone : (∀ o ∈ ops.filter fun op => op.bit = i, o.bit ≠ i) ↔ ∀ o ∈ ops, o.bit ≠ i :=
        ⟨fun h o ho hb => h o (List.mem_filter.mpr ⟨ho, decide_eq_true hb⟩) hb,
          fun h o ho => h o (List.mem_filter.mp ho).1⟩
      by_cases hbit : op.bit = i
      · rw [List.filter_cons_of_pos (by simpa using hbit), lastSet_cons, lastSet_cons, ih, hnone]
      · have hop : op ≠ .set i := fun h => hbit (by rw [h]; rfl)
        rw [List.filter_cons_of_neg (by simpa using hbit), lastSet_cons, ih]
        exact ⟨fun h => h.resolve_right fun h => hop h.1, .inl⟩

end Last

section Runs

variable {self : Bitmap} {m : Mem}

theorem wp_bitmapOp (op : BitmapOp) (Q : Unit → Mem → Prop) :
    wp (op.run self) m Q ↔ self.Valid ∧ op.bit / 8 < self.buffer.size.toNat ∧
      Q () (self.withBit m op.bit op.isSet) := by
  cases op with
  | set bit => exact wp_bitmapSet self bit m Q
  | clear bit => exact wp_bitmapClear self bit m Q

/-- **A run of operations inside of the buffer** goes through; a bit is what the last operation on
    it left, or what it was. -/
theorem wp_runBitmapOps (hv : self.Valid) {ops : List BitmapOp}
    (hin : ∀ op ∈ ops, op.bit < 8 * self.buffer.size.toNat) :
    wp (runBitmapOps self ops) m fun _ t => ∀ i, self.bit t i = true ↔
      LastSet i ops ∨ (∀ op ∈ ops, op.bit ≠ i) ∧ self.bit m i = true := by
  induction ops generalizing m with
  | nil =>
      rw [runBitmapOps, wp_pure]
      refine fun i => ⟨fun h => .inr ⟨fun op hop => absurd hop List.not_mem_nil, h⟩, fun h => ?_⟩
      exact (h.resolve_left lastSet_nil).2
  | cons op ops ih =>
      have hop := hin op List.mem_cons_self
      rw [runBitmapOps, wp_bind, wp_bitmapOp]
      refine ⟨hv, by omega, wp_mono (ih fun o ho => hin o (List.mem_cons_of_mem _ ho)) ?_⟩
      intro _ t ht i
      rw [ht, lastSet_cons, Bitmap.bit_withBit, List.forall_mem_cons, or_assoc]
      refine or_congr_right ?_
      by_cases hbit : op.bit = i
      · rw [if_pos hbit, isSet_iff hbit]
        exact ⟨fun h => .inl h.symm, fun h => (h.resolve_right fun h => h.1.1 hbit).symm⟩
      · have hne : op ≠ .set i := fun h => hbit (by rw [h]; rfl)
        rw [if_neg hbit]
        exact ⟨fun h => .inr ⟨⟨hbit, h.1⟩, h.2⟩,
          fun h => (h.resolve_left fun h => hne h.1).imp_left And.right⟩

/-- What stops an operation on a bit beyond the buffer: with a buffer there, the release
    assertion. -/
def bitmapRefusal (self : Bitmap) : Fault :=
  .assertion (if self.Valid then "byte_index < self->buffer.size"
    else "self->buffer.data != NULL && self->buffer.size > 0")

/-- The two assertions before each operation. -/
theorem stops_beyond {α : Type} {i : Nat} (hi : 8 * self.buffer.size.toNat ≤ i)
    (rest : Prog Fault Mem α) :
    Stops (do
      assert (self.buffer.data ≠ 0 ∧ 0 < self.buffer.size)
        "self->buffer.data != NULL && self->buffer.size > 0"
      assertRelease (i / 8 < self.buffer.size.toNat) "byte_index < self->buffer.size"
      rest) m (bitmapRefusal self) := by
  unfold bitmapRefusal
  by_cases hv : self.Valid
  · rw [if_pos hv]
    have hpass : assert (self.buffer.data ≠ 0 ∧ 0 < self.buffer.size)
        "self->buffer.data != NULL && self->buffer.size > 0" m = .ok ((), m) := by
      unfold assert
      exact congrFun (if_pos hv) m
    refine stops_bind_right hpass (stops_bind_left ?_)
    unfold assertRelease
    rw [if_neg (by omega)]
    exact stops_throw _ _
  · rw [if_neg hv]
    refine stops_bind_left ?_
    unfold assert
    exact congrFun (if_neg hv) m

/-- A bit that every operation refuses. -/
structure Refused (self : Bitmap) (m : Mem) (i : Nat) : Prop where
  isset : Stops (bitmapIsset self i) m (bitmapRefusal self)
  set : Stops (bitmapSet self i) m (bitmapRefusal self)
  clear : Stops (bitmapClear self i) m (bitmapRefusal self)

theorem refused_beyond {i : Nat} (hi : 8 * self.buffer.size.toNat ≤ i) : Refused self m i :=
  ⟨stops_beyond hi _, stops_beyond hi _, stops_beyond hi _⟩

end Runs

/-- **A bit is what the last operation on it made of it**, whatever was done to other bits, and a
    bit beyond the buffer is refused in every memory. -/
theorem bitmap_history {buffer : Span} (hv : (⟨buffer⟩ : Bitmap).Valid) (m : Mem)
    {ops : List BitmapOp} (hin : ∀ op ∈ ops, op.bit < 8 * buffer.size.toNat) :
    wp (do
      let self ← bitmapInit buffer
      runBitmapOps self ops
      return self) m (fun self t => self = ⟨buffer⟩ ∧
        ∀ i, i < 8 * buffer.size.toNat → wp (bitmapIsset self i) t fun answer t' =>
          t' = t ∧ (answer = true ↔ LastSet i ops) ∧
            (answer = true ↔ LastSet i (ops.filter fun op => op.bit = i))) ∧
      ∀ i t, 8 * buffer.size.toNat ≤ i → Refused ⟨buffer⟩ t i := by
  refine ⟨?_, fun i t hi => refused_beyond hi⟩
  rw [wp_bind, wp_bitmapInit hv, wp_bind]
  refine wp_mono (wp_runBitmapOps hv hin) fun _ t ht => ?_
  rw [wp_pure]
  refine ⟨rfl, fun i hi => ?_⟩
  have hbit : Bitmap.bit ⟨buffer⟩ t i = true ↔ LastSet i ops := by
    have hzero : Bitmap.bit ⟨buffer⟩ (fill m buffer.data.toNat buffer.size.toNat 0) i = false := by
      unfold Bitmap.bit
      rw [fill_in ⟨Nat.le_add_right _ _, Nat.add_lt_add_left (by omega) _⟩]
      exact BitVec.getLsbD_zero
    rw [ht i, hzero]
    exact ⟨fun h => h.resolve_right fun h => Bool.false_ne_true h.2, .inl⟩
  rw [wp_bitmapIsset]
  exact ⟨hv, by show i / 8 < buffer.size.toNat; omega, rfl, hbit, hbit.trans lastSet_filter⟩

/-- Bits 3 and 4 of a byte, the second cleared again. -/
theorem bitmap_history_byte : ∃ t : Mem,
    wp (bitmapIsset ⟨⟨0x1000, 1⟩⟩ 3) t (fun answer _ => answer = true) ∧
      wp (bitmapIsset ⟨⟨0x1000, 1⟩⟩ 4) t (fun answer _ => answer = false) := by
  obtain ⟨⟨self, t, -, rfl, ht⟩, -⟩ := @bitmap_history ⟨0x1000, 1⟩ (by decide) (fun _ => 0)
    [.set 4, .set 3, .clear 4] (by decide)
  have hset : LastSet 3 [.set 4, .set 3, .clear 4] := ⟨[.set 4], [.clear 4], rfl, by decide⟩
  have hclear : ¬ LastSet 4 [.set 4, .set 3, .clear 4] := by
    simp [lastSet_cons, lastSet_nil, BitmapOp.bit]
  refine ⟨t, wp_mono (ht 3 (by decide)) fun answer _ h => h.2.1.mpr hset,
    wp_mono (ht 4 (by decide)) fun answer _ h => ?_⟩
  exact Bool.eq_false_iff.mpr fun ha => hclear (h.2.1.mp ha)

end Slightx
