/-
  File:      Slightx/Klibc/Arena.lean
  Subject:   The arena: blocks cut off the front of a buffer, given back all at once.

  Sources: klibc/mem/arena.c, klibc/mem/align.c.

  `allocate` rounds the size up and takes the address as it is, `allocate_aligned` rounds the
  address up and takes the size as it is; both move one offset.

  * `arena_allocate_cases`, `arena_allocateAligned_cases`, `arena_reallocate_cases` -- what a call
    answers, as arithmetic of natural numbers
  * `arenaServes_iff` -- the calls that fail or return a block of their own: those that round
    without overflow, and round from an offset that is aligned
  * `arena_serves` -- so a run of such calls gives every block to one caller
-/
import Slightx.Klibc.Bytes
import Slightx.Lib.Machine

namespace Slightx

open Lib

/-! ## 1. The calls -/

/-- `alignof(max_align_t)` -/
def MAX_ALIGN : Usize := 16

structure Arena where
  memory : Span
  offset : Usize

/-- An arena and the memory it is in. -/
structure ArenaState where
  arena : Arena
  mem : Mem

/-- A call returns a pointer or fails an assertion, and leaves a state in both cases. -/
abbrev ArenaAnswer (σ : Type) := Except Fault Uptr × σ

namespace Arena

def init (memory : Span) : Except Fault Arena :=
  if memory.data ≠ 0 ∧ 0 < memory.size then .ok { memory, offset := 0 }
  else .error (.assertion "memory.data != NULL && memory.size > 0")

def reset (a : Arena) : Arena := { a with offset := 0 }

def allocate (a : Arena) (sz : Usize) : ArenaAnswer Arena :=
  let sz := alignSizeUp sz MAX_ALIGN
  if sz ≤ a.memory.size - a.offset then
    (.ok (a.memory.data + a.offset), { a with offset := a.offset + sz })
  else (.error (.assertion "a->memory.size - a->offset >= sz"), a)

def allocateAligned (a : Arena) (sz align : Usize) : ArenaAnswer Arena :=
  if isAlignmentValid align then
    let currentAddr := a.memory.data + a.offset
    let alignedAddr := alignPtrUp currentAddr align
    let padding := alignedAddr - currentAddr
    if a.memory.size - a.offset < sz + padding then (.ok 0, a)
    else (.ok alignedAddr, { a with offset := a.offset + (padding + sz) })
  else (.error (.assertion "is_alignment_valid(align)"), a)

end Arena

/-- `memcpy` checks its pointers before it writes. -/
def ArenaState.memcpy (s : ArenaState) (dst src : Uptr) (n : Usize) : ArenaAnswer ArenaState :=
  match Slightx.memcpy dst src n s.mem with
  | .ok (dst, mem) => (.ok dst, { s with mem })
  | .error e => (.error e, s)

def ArenaState.reallocate (s : ArenaState) (ptr : Uptr) (oldsz newsz : Usize) :
    ArenaAnswer ArenaState :=
  if newsz = 0 then (.ok 0, s)
  else
    match s.arena.allocate newsz with
    | (.error e, arena) => (.error e, { s with arena })
    | (.ok newptr, arena) =>
        if ptr ≠ 0 then
          ArenaState.memcpy { s with arena } newptr ptr (if oldsz < newsz then oldsz else newsz)
        else (.ok newptr, { s with arena })

/-! ## 2. The arena as a machine -/

inductive ArenaCall where
  | allocate (sz : Usize)
  | allocateAligned (sz align : Usize)
  | reallocate (ptr : Uptr) (oldsz newsz : Usize)
  | deallocate (ptr : Uptr) (sz : Usize)
  | reset
  deriving DecidableEq, Repr

/-- The call; what returns `void` answers `NULL`. -/
def ArenaCall.answer (s : ArenaState) : ArenaCall → ArenaAnswer ArenaState
  | allocate sz => ((s.arena.allocate sz).1, { s with arena := (s.arena.allocate sz).2 })
  | allocateAligned sz align =>
      ((s.arena.allocateAligned sz align).1,
        { s with arena := (s.arena.allocateAligned sz align).2 })
  | reallocate ptr oldsz newsz => s.reallocate ptr oldsz newsz
  | deallocate _ _ => (.ok 0, s)
  | reset => (.ok 0, { s with arena := s.arena.reset })

/-- The size and the alignment a call asks for. -/
def ArenaCall.request : ArenaCall → Option (Usize × Usize)
  | allocate sz => some (sz, MAX_ALIGN)
  | allocateAligned sz align => some (sz, align)
  | reallocate _ _ newsz => some (newsz, MAX_ALIGN)
  | deallocate _ _ => none
  | reset => none

structure ArenaBlock where
  start : Uptr
  size : Usize
  deriving DecidableEq, Repr

/-- The arena and the blocks it returned since the last reset, with the sizes asked for. -/
structure ArenaRun where
  state : ArenaState
  blocks : List ArenaBlock

/-- The blocks after a call that answered `p`. -/
def ArenaCall.record (blocks : List ArenaBlock) (answer : Except Fault Uptr) :
    ArenaCall → List ArenaBlock
  | reset => []
  | call =>
      match call.request, answer with
      | some (sz, _), .ok p => if p = 0 then blocks else ⟨p, sz⟩ :: blocks
      | _, _ => blocks

def arenaStep (r : ArenaRun) (call : ArenaCall) : Option ArenaRun :=
  some ⟨(call.answer r.state).2, call.record r.blocks (call.answer r.state).1⟩

def arenaBoot (arena : Arena) (mem : Mem) : ArenaRun := ⟨⟨arena, mem⟩, []⟩

/-- A buffer: aligned to 16 bytes, with an end that is an address. -/
structure ArenaBuffer (buffer : Span) : Prop where
  aligned : 16 ∣ buffer.data.toNat
  fits : buffer.data.toNat + buffer.size.toNat < 2 ^ 64

/-- Alignments are powers of two. -/
def ArenaLegal : ArenaCall → Prop
  | .allocateAligned _ align => ∃ k, k < 64 ∧ align.toNat = 2 ^ k
  | _ => True

/-! ## 3. What a call owes its caller -/

/-- `sz` bytes at `p`, inside the buffer, aligned, and of no other block. -/
structure OwnBlock (r : ArenaRun) (sz align : Usize) (p : Uptr) : Prop where
  lower : r.state.arena.memory.data.toNat ≤ p.toNat
  upper : p.toNat + sz.toNat ≤ r.state.arena.memory.data.toNat + r.state.arena.memory.size.toNat
  apart : ∀ b ∈ r.blocks,
    b.start.toNat + b.size.toNat ≤ p.toNat ∨ p.toNat + sz.toNat ≤ b.start.toNat
  aligned : align.toNat ∣ p.toNat

/-- A failed assertion, or `NULL`. -/
def ArenaFailed (answer : Except Fault Uptr) : Prop := ∀ p, answer = .ok p → p = 0

/-- The `n` bytes at `ptr` are those of a block, or of no byte of the `sz` ones at `p`. -/
def ArenaSource (r : ArenaRun) (ptr : Uptr) (n : Usize) (p : Uptr) (sz : Usize) : Prop :=
  (∃ b ∈ r.blocks, b.start = ptr ∧ n.toNat ≤ b.size.toNat) ∨
    ptr.toNat + n.toNat ≤ p.toNat ∨ p.toNat + sz.toNat ≤ ptr.toNat

structure ArenaServes (r : ArenaRun) (call : ArenaCall) : Prop where
  bounded : (call.answer r.state).2.arena.offset.toNat ≤ r.state.arena.memory.size.toNat
  served : ∀ sz align, call.request = some (sz, align) →
    (ArenaFailed (call.answer r.state).1 ∧
        (call.answer r.state).2.arena.offset = r.state.arena.offset) ∨
      ∃ p, (call.answer r.state).1 = .ok p ∧ p ≠ 0 ∧ OwnBlock r sz align p
  kept : ∀ ptr oldsz newsz p, call = .reallocate ptr oldsz newsz →
    (call.answer r.state).1 = .ok p → p ≠ 0 → ptr ≠ 0 → ArenaSource r ptr oldsz p newsz →
    ∀ i, i < min oldsz.toNat newsz.toNat →
      (call.answer r.state).2.mem (p.toNat + i) = r.state.mem (ptr.toNat + i)

/-- The rest of the buffer. -/
def Arena.room (a : Arena) : Nat := a.memory.size.toNat - a.offset.toNat

/-- Rounding `sz` up does not overflow, and the offset is aligned or there is no room. -/
def RoundFits (a : Arena) (sz : Usize) : Prop :=
  sz.toNat + 16 ≤ 2 ^ 64 ∧ (16 ∣ a.offset.toNat ∨ a.room < sz.toNat + gap sz.toNat 16)

/-- The sum of size and padding is exact, or what is left of it does not fit either, or nothing is
    left of it and of the address. -/
def PadFits (a : Arena) (sz align : Usize) : Prop :=
  let current := a.memory.data.toNat + a.offset.toNat
  let padding := gap current align.toNat
  sz.toNat + padding < 2 ^ 64 ∨ a.room + 2 ^ 64 < sz.toNat + padding ∨
    (sz.toNat + padding = 2 ^ 64 ∧ current + padding = 2 ^ 64)

def ArenaFits (r : ArenaRun) : ArenaCall → Prop
  | .allocate sz => RoundFits r.state.arena sz
  | .allocateAligned sz align => PadFits r.state.arena sz align
  | .reallocate _ _ newsz => newsz = 0 ∨ RoundFits r.state.arena newsz
  | .deallocate _ _ => True
  | .reset => True

instance : DecidablePred ArenaLegal := fun call =>
  match call with
  | .allocateAligned _ align => inferInstanceAs (Decidable (∃ k, k < 64 ∧ align.toNat = 2 ^ k))
  | .allocate _ | .reallocate _ _ _ | .deallocate _ _ | .reset => inferInstanceAs (Decidable True)

instance (a : Arena) (sz : Usize) : Decidable (RoundFits a sz) :=
  inferInstanceAs (Decidable (_ ∧ _))

instance (a : Arena) (sz align : Usize) : Decidable (PadFits a sz align) :=
  inferInstanceAs (Decidable (_ ∨ _ ∨ _))

instance (r : ArenaRun) : DecidablePred (ArenaFits r) := fun call =>
  match call with
  | .allocate sz => inferInstanceAs (Decidable (RoundFits r.state.arena sz))
  | .allocateAligned sz align => inferInstanceAs (Decidable (PadFits r.state.arena sz align))
  | .reallocate _ _ newsz =>
      inferInstanceAs (Decidable (newsz = 0 ∨ RoundFits r.state.arena newsz))
  | .deallocate _ _ | .reset => inferInstanceAs (Decidable True)

/-! ## 4. The answers, in numbers -/

section Answers

variable {a : Arena} {sz align : Usize}

theorem toNat_room (h : a.offset.toNat ≤ a.memory.size.toNat) :
    (a.memory.size - a.offset).toNat = a.room := BitVec.toNat_sub_of_le h

theorem toNat_current (h : a.memory.data.toNat + a.offset.toNat < 2 ^ 64) :
    (a.memory.data + a.offset).toNat = a.memory.data.toNat + a.offset.toNat := by
  rw [BitVec.toNat_add, Nat.mod_eq_of_lt h]

/-- `allocate` fails, or moves the offset by the rounded size. -/
theorem arena_allocate_cases (hle : a.offset.toNat ≤ a.memory.size.toNat) (sz : Usize) :
    (a.room < (sz.toNat + gap sz.toNat 16) % 2 ^ 64 ∧
        ∃ e, a.allocate sz = (.error e, a)) ∨
      ((sz.toNat + gap sz.toNat 16) % 2 ^ 64 ≤ a.room ∧
        ∃ o : Usize, a.allocate sz = (.ok (a.memory.data + a.offset), { a with offset := o }) ∧
          o.toNat = a.offset.toNat + (sz.toNat + gap sz.toNat 16) % 2 ^ 64) := by
  have hr : (alignSizeUp sz MAX_ALIGN).toNat = (sz.toNat + gap sz.toNat 16) % 2 ^ 64 :=
    toNat_alignSizeUp_gap (by decide)
  have hroom := toNat_room hle
  by_cases hfits : alignSizeUp sz MAX_ALIGN ≤ a.memory.size - a.offset
  · have hle' := hfits
    rw [BitVec.le_def, hr, hroom] at hle'
    refine .inr ⟨hle', a.offset + alignSizeUp sz MAX_ALIGN, if_pos hfits, ?_⟩
    have hsize := a.memory.size.isLt
    unfold Arena.room at hle'
    rw [BitVec.toNat_add, hr, Nat.mod_eq_of_lt (by omega)]
  · refine .inl ⟨?_, _, if_neg hfits⟩
    rw [BitVec.le_def, hr, hroom] at hfits
    exact Nat.lt_of_not_le hfits

theorem isAlignmentValid_pow {k : Nat} (h : align.toNat = 2 ^ k) :
    isAlignmentValid align = true := by
  unfold isAlignmentValid
  have hone : (1 : Usize).toNat = 1 := rfl
  have hpos : 1 ≤ align.toNat := h ▸ Nat.one_le_two_pow
  have hand : align &&& (align - 1) = 0 := by
    apply BitVec.eq_of_toNat_eq
    have hle : (1 : Usize) ≤ align := BitVec.le_def.mpr (hone ▸ hpos)
    rw [BitVec.toNat_and, BitVec.toNat_sub_of_le hle, hone, h, Nat.and_two_pow_sub_one_eq_mod,
      Nat.mod_self]
    rfl
  rw [hand]
  rfl

/-- `allocate_aligned` returns `NULL`, or moves the offset by the size and the padding. -/
theorem arena_allocateAligned_cases (hle : a.offset.toNat ≤ a.memory.size.toNat)
    (hfits : a.memory.data.toNat + a.memory.size.toNat < 2 ^ 64) (sz : Usize)
    (halign : isAlignmentValid align = true) (hpos : 0 < align.toNat) :
    (a.room < (sz.toNat + gap (a.memory.data.toNat + a.offset.toNat) align.toNat) % 2 ^ 64 ∧
        a.allocateAligned sz align = (.ok 0, a)) ∨
      ((sz.toNat + gap (a.memory.data.toNat + a.offset.toNat) align.toNat) % 2 ^ 64 ≤ a.room ∧
        ∃ p o : Usize, a.allocateAligned sz align = (.ok p, { a with offset := o }) ∧
          p.toNat = (a.memory.data.toNat + a.offset.toNat +
            gap (a.memory.data.toNat + a.offset.toNat) align.toNat) % 2 ^ 64 ∧
          o.toNat = a.offset.toNat +
            (sz.toNat + gap (a.memory.data.toNat + a.offset.toNat) align.toNat) % 2 ^ 64) := by
  have hcurrent := toNat_current (a := a) (by omega)
  have haligned := @toNat_alignPtrUp_gap (a.memory.data + a.offset) align hpos
  rw [hcurrent] at haligned
  have hlt := gap_lt (a.memory.data.toNat + a.offset.toNat) hpos
  have hb := align.isLt
  have hpad : (alignPtrUp (a.memory.data + a.offset) align - (a.memory.data + a.offset)).toNat
      = gap (a.memory.data.toNat + a.offset.toNat) align.toNat := by
    rw [BitVec.toNat_sub, haligned, hcurrent]
    omega
  have hroom := toNat_room hle
  have hcall : a.allocateAligned sz align =
      if a.memory.size - a.offset < sz + (alignPtrUp (a.memory.data + a.offset) align -
          (a.memory.data + a.offset)) then (.ok 0, a)
      else (.ok (alignPtrUp (a.memory.data + a.offset) align),
        { a with offset := a.offset + ((alignPtrUp (a.memory.data + a.offset) align -
          (a.memory.data + a.offset)) + sz) }) := if_pos halign
  rw [hcall]
  generalize gap (a.memory.data.toNat + a.offset.toNat) align.toNat = pad at *
  by_cases hfull : a.memory.size - a.offset < sz + (alignPtrUp (a.memory.data + a.offset) align -
      (a.memory.data + a.offset))
  · refine .inl ⟨?_, if_pos hfull⟩
    rw [BitVec.lt_def, hroom, BitVec.toNat_add, hpad] at hfull
    exact hfull
  · refine .inr ⟨?_, _, _, if_neg hfull, haligned, ?_⟩
    · rw [BitVec.lt_def, hroom, BitVec.toNat_add, hpad, Nat.not_lt] at hfull
      exact hfull
    · rw [BitVec.lt_def, hroom, BitVec.toNat_add, hpad, Nat.not_lt] at hfull
      unfold Arena.room at hfull
      rw [BitVec.toNat_add, BitVec.toNat_add, hpad, Nat.add_comm pad, Nat.mod_eq_of_lt (by omega)]

/-- `reallocate` is `allocate`, and a copy where there is something to copy. -/
theorem arena_reallocate_cases {s : ArenaState} (ptr : Uptr) (oldsz : Usize) {newsz : Usize}
    (hne : newsz ≠ 0) :
    (∀ e arena, s.arena.allocate newsz = (.error e, arena) →
        s.reallocate ptr oldsz newsz = (.error e, { s with arena })) ∧
      ∀ p arena, s.arena.allocate newsz = (.ok p, arena) → p ≠ 0 →
        s.reallocate ptr oldsz newsz = (.ok p, ⟨arena, if ptr = 0 then s.mem else
          copied s.mem p.toNat ptr.toNat (min oldsz.toNat newsz.toNat)⟩) := by
  refine ⟨fun e arena h => ?_, fun p arena h hp => ?_⟩
  · unfold ArenaState.reallocate
    rw [if_neg hne, h]
  · have hmin : (if oldsz < newsz then oldsz else newsz).toNat = min oldsz.toNat newsz.toNat := by
      split
      · rename_i hlt
        rw [BitVec.lt_def] at hlt
        omega
      · rename_i hge
        rw [BitVec.lt_def] at hge
        omega
    unfold ArenaState.reallocate
    rw [if_neg hne, h]
    by_cases hptr : ptr = 0
    · rw [if_pos hptr]
      exact if_neg fun hne => hne hptr
    · have hcopy : wp (memcpy p ptr (if oldsz < newsz then oldsz else newsz)) s.mem fun d m =>
          d = p ∧ m = copied s.mem p.toNat ptr.toNat (min oldsz.toNat newsz.toNat) :=
        (wp_memcpy hp hptr _ _ _).mpr ⟨rfl, by rw [hmin]⟩
      obtain ⟨d, m, hrun, rfl, rfl⟩ := hcopy
      rw [if_neg hptr]
      refine (if_pos hptr).trans ?_
      unfold ArenaState.memcpy
      rw [hrun]

end Answers

/-! ## 5. Blocks of their own -/

structure ArenaInv (r : ArenaRun) : Prop where
  data : r.state.arena.memory.data ≠ 0
  aligned : 16 ∣ r.state.arena.memory.data.toNat
  fits : r.state.arena.memory.data.toNat + r.state.arena.memory.size.toNat < 2 ^ 64
  offset : r.state.arena.offset.toNat ≤ r.state.arena.memory.size.toNat
  blocks : ∀ b ∈ r.blocks, r.state.arena.memory.data.toNat ≤ b.start.toNat ∧
    b.start.toNat + b.size.toNat ≤ r.state.arena.memory.data.toNat + r.state.arena.offset.toNat

/-- The block `p` was cut off, up to the offset `o`. -/
structure CutOut (r : ArenaRun) (sz align p o : Usize) : Prop where
  own : OwnBlock r sz align p
  behind : r.state.arena.memory.data.toNat + r.state.arena.offset.toNat ≤ p.toNat
  nonnull : p ≠ 0
  past : p.toNat + sz.toNat ≤ r.state.arena.memory.data.toNat + o.toNat
  mono : r.state.arena.offset.toNat ≤ o.toNat
  bounded : o.toNat ≤ r.state.arena.memory.size.toNat

section Blocks

variable {r : ArenaRun} {sz align : Usize}

theorem data_pos (h : ArenaInv r) : 16 ≤ r.state.arena.memory.data.toNat := by
  have hne : r.state.arena.memory.data.toNat ≠ 0 := fun h0 => h.data (BitVec.eq_of_toNat_eq h0)
  obtain ⟨k, hk⟩ := h.aligned
  omega

/-- What the room holds behind the offset is free. -/
theorem cut_room (h : ArenaInv r) {p o : Usize} {pad len : Nat}
    (hp : p.toNat = r.state.arena.memory.data.toNat + r.state.arena.offset.toNat + pad)
    (ho : o.toNat = r.state.arena.offset.toNat + (pad + len)) (hlen : sz.toNat ≤ len)
    (hroom : pad + len ≤ r.state.arena.room) (halign : align.toNat ∣ p.toNat) :
    CutOut r sz align p o := by
  have hpos := data_pos h
  have hoff := h.offset
  unfold Arena.room at hroom
  refine ⟨⟨by omega, by omega, fun b hb => ?_, halign⟩, by omega, fun h0 => ?_, by omega, by omega,
    by omega⟩
  · have hend := (h.blocks b hb).2
    exact .inl (by omega)
  · rw [h0] at hp
    have hz : (0 : Usize).toNat = 0 := rfl
    omega

/-- A size that rounds without overflow, at an aligned offset. -/
theorem allocate_served (h : ArenaInv r) (hf : RoundFits r.state.arena sz) :
    (∃ e, r.state.arena.allocate sz = (.error e, r.state.arena)) ∨
      ∃ p o : Usize, r.state.arena.allocate sz = (.ok p, { r.state.arena with offset := o }) ∧
        CutOut r sz MAX_ALIGN p o := by
  obtain ⟨hsz, hoff⟩ := hf
  have hlt := gap_lt sz.toNat (show 0 < 16 by decide)
  have hmod : (sz.toNat + gap sz.toNat 16) % 2 ^ 64 = sz.toNat + gap sz.toNat 16 :=
    Nat.mod_eq_of_lt (by
      obtain ⟨k, hk⟩ := dvd_add_gap sz.toNat (show 0 < 16 by decide)
      omega)
  obtain ⟨-, hfail⟩ | ⟨hroom, o, hok, ho⟩ := arena_allocate_cases h.offset sz
  · exact .inl hfail
  · rw [hmod] at hroom ho
    have hfits := h.fits
    have hbound := h.offset
    have hp := toNat_current (a := r.state.arena) (by omega)
    have hp0 : (r.state.arena.memory.data + r.state.arena.offset).toNat =
        r.state.arena.memory.data.toNat + r.state.arena.offset.toNat + 0 := hp
    refine .inr ⟨_, o, hok, cut_room h hp0 (by rw [Nat.zero_add]; exact ho)
      (Nat.le_add_right _ _) (by rw [Nat.zero_add]; exact hroom) ?_⟩
    obtain hal | hfull := hoff
    · rw [hp]
      exact Nat.dvd_add h.aligned hal
    · omega

/-- Where the size overflows or the offset is not aligned, `allocate` returns a block that is not
    one. -/
theorem allocate_broken (h : ArenaInv r) (hf : ¬ RoundFits r.state.arena sz) :
    ∃ p o : Usize, r.state.arena.allocate sz = (.ok p, { r.state.arena with offset := o }) ∧
      p ≠ 0 ∧ ¬ OwnBlock r sz MAX_ALIGN p := by
  have hpos := data_pos h
  have hfits := h.fits
  have hbound := h.offset
  have hp := toNat_current (a := r.state.arena) (by omega)
  have hne : r.state.arena.memory.data + r.state.arena.offset ≠ 0 := by
    intro h0
    rw [h0] at hp
    have hz : (0 : Usize).toNat = 0 := rfl
    omega
  have hlt := gap_lt sz.toNat (show 0 < 16 by decide)
  obtain ⟨k, hk⟩ := dvd_add_gap sz.toNat (show 0 < 16 by decide)
  have hszlt := sz.isLt
  unfold RoundFits at hf
  obtain ⟨hfull, -⟩ | ⟨hroom, o, hok, -⟩ := arena_allocate_cases h.offset sz
  · unfold Arena.room at hfull hf
    by_cases hw : sz.toNat + 16 ≤ 2 ^ 64
    · exact absurd ⟨hw, .inr (by omega)⟩ hf
    · omega
  · refine ⟨_, o, hok, hne, fun hown => ?_⟩
    have hupper := hown.upper
    have haligned := hown.aligned
    rw [hp] at hupper haligned
    have hal : 16 ∣ r.state.arena.offset.toNat :=
      (Nat.dvd_add_iff_right h.aligned).mpr haligned
    exact hf ⟨by omega, .inl hal⟩

theorem allocateAligned_served (h : ArenaInv r) (halign : ∃ k, k < 64 ∧ align.toNat = 2 ^ k)
    (hf : PadFits r.state.arena sz align) :
    (r.state.arena.allocateAligned sz align = (.ok 0, r.state.arena)) ∨
      ∃ p o : Usize,
        r.state.arena.allocateAligned sz align = (.ok p, { r.state.arena with offset := o }) ∧
          CutOut r sz align p o := by
  obtain ⟨k, -, hk⟩ := halign
  have hpos : 0 < align.toNat := hk ▸ Nat.two_pow_pos k
  have hfits := h.fits
  have hbound := h.offset
  have hszlt := sz.isLt
  have hblt := align.isLt
  have hlt := gap_lt (r.state.arena.memory.data.toNat + r.state.arena.offset.toNat) hpos
  have hdvd := dvd_add_gap
    (r.state.arena.memory.data.toNat + r.state.arena.offset.toNat) hpos
  unfold PadFits at hf
  dsimp only at hf
  obtain ⟨-, hnull⟩ | ⟨hroom, p, o, hok, hp, ho⟩ :=
    arena_allocateAligned_cases h.offset h.fits sz (isAlignmentValid_pow hk) hpos
  · exact .inl hnull
  · generalize gap (r.state.arena.memory.data.toNat + r.state.arena.offset.toNat) align.toNat
      = pad at *
    have hroom' := hroom
    unfold Arena.room at hf hroom'
    obtain hsum | hleft | ⟨hsum, htop⟩ := hf
    · rw [Nat.mod_eq_of_lt hsum] at hroom hroom' ho
      rw [Nat.mod_eq_of_lt (by omega)] at hp
      exact .inr ⟨p, o, hok, cut_room h hp (by omega) (Nat.le_refl _) (by omega) (hp ▸ hdvd)⟩
    · omega
    · -- nothing is left: the address is `NULL`, the offset has not moved
      rw [htop, Nat.mod_self] at hp
      rw [hsum, Nat.mod_self, Nat.add_zero] at ho
      rw [hok, BitVec.eq_of_toNat_eq (hp.trans rfl : p.toNat = (0 : Usize).toNat),
        BitVec.eq_of_toNat_eq ho]
      exact .inl rfl

theorem allocateAligned_broken (h : ArenaInv r) (halign : ∃ k, k < 64 ∧ align.toNat = 2 ^ k)
    (hf : ¬ PadFits r.state.arena sz align) :
    ∃ p o : Usize,
      r.state.arena.allocateAligned sz align = (.ok p, { r.state.arena with offset := o }) ∧
        (p = 0 → o ≠ r.state.arena.offset) ∧ ¬ OwnBlock r sz align p := by
  obtain ⟨k, hk64, hk⟩ := halign
  have hpos : 0 < align.toNat := hk ▸ Nat.two_pow_pos k
  have hdata := data_pos h
  have hfits := h.fits
  have hbound := h.offset
  have hlt := gap_lt (r.state.arena.memory.data.toNat + r.state.arena.offset.toNat) hpos
  have hdvd := dvd_add_gap
    (r.state.arena.memory.data.toNat + r.state.arena.offset.toNat) hpos
  have htop : align.toNat ∣ 2 ^ 64 := hk ▸ Nat.pow_dvd_pow 2 (Nat.le_of_lt hk64)
  have hszlt := sz.isLt
  have hblt := align.isLt
  unfold PadFits at hf
  dsimp only at hf
  obtain ⟨hfull, -⟩ | ⟨hroom, p, o, hok, hp, ho⟩ :=
    arena_allocateAligned_cases h.offset h.fits sz (isAlignmentValid_pow hk) hpos
  · generalize gap (r.state.arena.memory.data.toNat + r.state.arena.offset.toNat) align.toNat
      = pad at *
    omega
  · generalize gap (r.state.arena.memory.data.toNat + r.state.arena.offset.toNat) align.toNat
      = pad at *
    -- an address past the end of the address space is the end itself
    have hwrap : 2 ^ 64 ≤ r.state.arena.memory.data.toNat + r.state.arena.offset.toNat + pad →
        r.state.arena.memory.data.toNat + r.state.arena.offset.toNat + pad = 2 ^ 64 := by
      intro hge
      have hrest := Nat.dvd_sub hdvd htop
      have hzero := Nat.eq_zero_of_dvd_of_lt hrest (by omega)
      omega
    refine ⟨p, o, hok, fun h0 hsame => ?_, fun hown => ?_⟩
    · rw [hsame] at ho
      rw [h0, show (0 : Usize).toNat = 0 from rfl] at hp
      omega
    · have hlower := hown.lower
      have hupper := hown.upper
      omega

end Blocks

/-! ## 6. Runs -/

section Runs

variable {r : ArenaRun}

/-- The copy brings the bytes of the old block. -/
theorem copied_of_cut {ptr oldsz newsz align p o : Usize} (h : ArenaInv r)
    (hc : CutOut r newsz align p o) (hsource : ArenaSource r ptr oldsz p newsz) {i : Nat}
    (hi : i < min oldsz.toNat newsz.toNat) :
    copied r.state.mem p.toNat ptr.toNat (min oldsz.toNat newsz.toNat) (p.toNat + i)
      = r.state.mem (ptr.toNat + i) := by
  have hbefore : p.toNat ≤ ptr.toNat ∨
      ptr.toNat + min oldsz.toNat newsz.toNat ≤ p.toNat := by
    obtain ⟨b, hb, rfl, hlen⟩ | hlow | hhigh := hsource
    · have hend := (h.blocks b hb).2
      have hbehind := hc.behind
      exact .inr (by omega)
    · exact .inr (by omega)
    · exact .inl (by omega)
  rw [copied_eq hbefore, moved_in (by omega)]
  congr 1
  omega

/-- The answer `p` of a call that cut a block off the buffer. -/
structure Granted (r : ArenaRun) (call : ArenaCall) (sz align p o : Usize) (mem : Mem) :
    Prop where
  request : call.request = some (sz, align)
  answer : call.answer r.state = (.ok p, ⟨{ r.state.arena with offset := o }, mem⟩)
  cut : CutOut r sz align p o
  kept : ∀ ptr oldsz newsz, call = .reallocate ptr oldsz newsz → ptr ≠ 0 →
    ArenaSource r ptr oldsz p newsz →
    ∀ i, i < min oldsz.toNat newsz.toNat → mem (p.toNat + i) = r.state.mem (ptr.toNat + i)

theorem arenaFailed_error (e : Fault) : ArenaFailed (.error e) := fun p hp => by cases hp

theorem arenaFailed_null : ArenaFailed (.ok 0) := fun p hp => by cases hp; rfl

/-- A call that fits fails and changes nothing, or cuts a block off, or resets the arena. -/
theorem arena_answer (h : ArenaInv r) {call : ArenaCall} (hl : ArenaLegal call)
    (hf : ArenaFits r call) :
    (ArenaFailed (call.answer r.state).1 ∧ (call.answer r.state).2 = r.state) ∨
      (∃ sz align p o mem, Granted r call sz align p o mem) ∨ call = .reset := by
  cases call with
  | allocate sz =>
      obtain ⟨e, hfail⟩ | ⟨p, o, hok, hc⟩ := allocate_served h hf
      · refine .inl ⟨?_, ?_⟩
        · simp only [ArenaCall.answer, hfail]
          exact arenaFailed_error e
        · simp only [ArenaCall.answer, hfail]
      · refine .inr (.inl ⟨sz, MAX_ALIGN, p, o, r.state.mem, rfl, ?_, hc, fun _ _ _ hcall => ?_⟩)
        · simp only [ArenaCall.answer, hok]
        · cases hcall
  | allocateAligned sz align =>
      obtain hfail | ⟨p, o, hok, hc⟩ := allocateAligned_served h hl hf
      · refine .inl ⟨?_, ?_⟩
        · simp only [ArenaCall.answer, hfail]
          exact arenaFailed_null
        · simp only [ArenaCall.answer, hfail]
      · refine .inr (.inl ⟨sz, align, p, o, r.state.mem, rfl, ?_, hc, fun _ _ _ hcall => ?_⟩)
        · simp only [ArenaCall.answer, hok]
        · cases hcall
  | reallocate ptr oldsz newsz =>
      by_cases hz : newsz = 0
      · have hnull : r.state.reallocate ptr oldsz newsz = (.ok 0, r.state) := if_pos hz
        refine .inl ⟨?_, ?_⟩
        · simp only [ArenaCall.answer, hnull]
          exact arenaFailed_null
        · simp only [ArenaCall.answer, hnull]
      · obtain ⟨herr, hans⟩ := @arena_reallocate_cases r.state ptr oldsz newsz hz
        obtain ⟨e, hfail⟩ | ⟨p, o, hok, hc⟩ := allocate_served h (hf.resolve_left hz)
        · refine .inl ⟨?_, ?_⟩
          · simp only [ArenaCall.answer, herr _ _ hfail]
            exact arenaFailed_error e
          · simp only [ArenaCall.answer, herr _ _ hfail]
        · refine .inr (.inl ⟨newsz, MAX_ALIGN, p, o, _, rfl, hans _ _ hok hc.nonnull, hc, ?_⟩)
          intro ptr' oldsz' newsz' hcall hptr hsource i hi
          cases hcall
          rw [if_neg hptr]
          exact copied_of_cut h hc hsource hi
  | deallocate ptr sz => exact .inl ⟨arenaFailed_null, rfl⟩
  | reset => exact .inr (.inr rfl)

theorem arenaServes_of_fits (h : ArenaInv r) {call : ArenaCall} (hl : ArenaLegal call)
    (hf : ArenaFits r call) : ArenaServes r call := by
  obtain ⟨hfail, hsame⟩ | ⟨sz, align, p, o, mem, hg⟩ | rfl := arena_answer h hl hf
  · refine ⟨?_, fun _ _ _ => .inl ⟨hfail, by rw [hsame]⟩,
      fun _ _ _ p _ hp hne => absurd (hfail p hp) hne⟩
    rw [hsame]
    exact h.offset
  · refine ⟨?_, fun sz' align' hreq => ?_, fun ptr oldsz newsz p' hcall hp' _ hptr hsource => ?_⟩
    · rw [hg.answer]
      exact hg.cut.bounded
    · rw [hg.request] at hreq
      cases hreq
      rw [hg.answer]
      exact .inr ⟨p, rfl, hg.cut.nonnull, hg.cut.own⟩
    · rw [hg.answer] at hp' ⊢
      cases hp'
      exact hg.kept ptr oldsz newsz hcall hptr hsource
  · refine ⟨Nat.zero_le _, fun sz align hreq => ?_, fun ptr oldsz newsz p hcall => ?_⟩
    · cases hreq
    · cases hcall

/-- **The calls that serve their caller** are the ones that fit. -/
theorem arenaServes_iff (h : ArenaInv r) {call : ArenaCall} (hl : ArenaLegal call) :
    ArenaServes r call ↔ ArenaFits r call := by
  refine ⟨fun hs => ?_, arenaServes_of_fits h hl⟩
  refine Classical.byContradiction fun hf => ?_
  cases call with
  | allocate sz =>
      obtain ⟨p, o, hok, hne, hown⟩ := allocate_broken h hf
      have hserved := hs.served sz MAX_ALIGN rfl
      simp only [ArenaCall.answer, hok] at hserved
      obtain ⟨hfail, -⟩ | ⟨p', hp', -, hown'⟩ := hserved
      · exact hne (hfail p rfl)
      · cases hp'
        exact hown hown'
  | allocateAligned sz align =>
      obtain ⟨p, o, hok, hmoved, hown⟩ := allocateAligned_broken h hl hf
      have hserved := hs.served sz align rfl
      simp only [ArenaCall.answer, hok] at hserved
      obtain ⟨hfail, hsame⟩ | ⟨p', hp', -, hown'⟩ := hserved
      · exact hmoved (hfail p rfl) hsame
      · cases hp'
        exact hown hown'
  | reallocate ptr oldsz newsz =>
      have hz : newsz ≠ 0 := fun hz => hf (.inl hz)
      obtain ⟨p, o, hok, hne, hown⟩ := allocate_broken h fun hr => hf (.inr hr)
      have hans := (@arena_reallocate_cases r.state ptr oldsz newsz hz).2 _ _ hok hne
      have hserved := hs.served newsz MAX_ALIGN rfl
      simp only [ArenaCall.answer, hans] at hserved
      obtain ⟨hfail, -⟩ | ⟨p', hp', -, hown'⟩ := hserved
      · exact hne (hfail p rfl)
      · cases hp'
        exact hown hown'
  | deallocate ptr sz => exact hf True.intro
  | reset => exact hf True.intro

theorem mem_record {blocks : List ArenaBlock} {answer : Except Fault Uptr} {call : ArenaCall}
    {b : ArenaBlock} (hb : b ∈ call.record blocks answer) :
    b ∈ blocks ∨ ∃ sz align p, call.request = some (sz, align) ∧ answer = .ok p ∧ p ≠ 0 ∧
      b = ⟨p, sz⟩ := by
  unfold ArenaCall.record at hb
  split at hb
  · exact absurd hb List.not_mem_nil
  · split at hb
    · rename_i sz align p hreq
      split at hb
      · exact .inl hb
      · rename_i hne
        obtain rfl | hb := List.mem_cons.mp hb
        · exact .inr ⟨sz, align, p, hreq, rfl, hne, rfl⟩
        · exact .inl hb
    · exact .inl hb

theorem arenaInv_step {r' : ArenaRun} (h : ArenaInv r) {call : ArenaCall} (hl : ArenaLegal call)
    (hf : ArenaFits r call) (hs : arenaStep r call = some r') : ArenaInv r' := by
  obtain rfl := Option.some.inj hs
  obtain ⟨hfail, hsame⟩ | ⟨sz, align, p, o, mem, hg⟩ | rfl := arena_answer h hl hf
  · rw [hsame]
    refine ⟨h.data, h.aligned, h.fits, h.offset, fun b hb => ?_⟩
    obtain hb | ⟨sz, align, p, -, hp, hne, -⟩ := mem_record hb
    · exact h.blocks b hb
    · exact absurd (hfail p hp) hne
  · have hstate : (call.answer r.state).2 = ⟨{ r.state.arena with offset := o }, mem⟩ := by
      rw [hg.answer]
    rw [hstate]
    refine ⟨h.data, h.aligned, h.fits, hg.cut.bounded, fun b hb => ?_⟩
    obtain hb | ⟨sz', align', p', hreq, hp', -, rfl⟩ := mem_record hb
    · obtain ⟨hlow, hend⟩ := h.blocks b hb
      exact ⟨hlow, Nat.le_trans hend (Nat.add_le_add_left hg.cut.mono _)⟩
    · rw [hg.answer] at hp'
      rw [hg.request] at hreq
      cases hreq
      cases hp'
      exact ⟨hg.cut.own.lower, hg.cut.past⟩
  · exact ⟨h.data, h.aligned, h.fits, Nat.zero_le _, fun b hb => absurd hb List.not_mem_nil⟩

theorem arenaInv_boot {buffer : Span} {arena : Arena} (hbuf : ArenaBuffer buffer)
    (hinit : Arena.init buffer = .ok arena) (mem : Mem) : ArenaInv (arenaBoot arena mem) := by
  unfold Arena.init at hinit
  split at hinit
  · rename_i hok
    cases hinit
    exact ⟨hok.1, hbuf.aligned, hbuf.fits, Nat.zero_le _, fun b hb => absurd hb List.not_mem_nil⟩
  · cases hinit

end Runs

/-- **An arena gives every block to one caller**: in a run of calls that fit, every call fails and
    leaves the offset alone, or returns a block of the buffer that is aligned, has the size asked
    for and shares no byte with the blocks since the last reset, and `reallocate` brings the old
    bytes along. -/
theorem arena_serves {buffer : Span} {arena : Arena} {mem : Mem} {calls : List ArenaCall}
    {r : ArenaRun} (hbuf : ArenaBuffer buffer) (hinit : Arena.init buffer = .ok arena)
    (hrun : Runs arenaStep (fun r call => ArenaLegal call ∧ ArenaFits r call)
      (arenaBoot arena mem) calls r) :
    r.state.arena.offset.toNat ≤ r.state.arena.memory.size.toNat ∧
      ∀ call, ArenaLegal call → (ArenaServes r call ↔ ArenaFits r call) := by
  have h : ArenaInv r := runs_inv ArenaInv (arenaInv_boot hbuf hinit mem)
    (fun _ _ _ hi hp hs => arenaInv_step hi hp.1 hp.2 hs) hrun
  exact ⟨h.offset, fun call hl => arenaServes_iff h hl⟩

def arenaBuffer : Span := ⟨4096, 4096⟩

/-- A block of 100 bytes, the same one larger, and one of a whole cache line. -/
def threeArenaCalls : List ArenaCall :=
  [.allocate 100, .reallocate 4096 100 200, .allocateAligned 64 64]

theorem arena_serves_three : ∃ r : ArenaRun,
    r.blocks = [⟨4416, 64⟩, ⟨4208, 200⟩, ⟨4096, 100⟩] ∧
      ArenaServes r (.reallocate 4208 200 300) := by
  have hsome : (execIf arenaStep (fun r call => decide (ArenaLegal call ∧ ArenaFits r call))
      (arenaBoot ⟨arenaBuffer, 0⟩ fun _ => 0) threeArenaCalls).map
        (fun r => (r.blocks, decide (ArenaFits r (.reallocate 4208 200 300)))) =
      some ([⟨4416, 64⟩, ⟨4208, 200⟩, ⟨4096, 100⟩], true) := by
    decide +kernel
  obtain ⟨r, hexec, hr⟩ := Option.map_eq_some_iff.mp hsome
  have hrun := runs_mono (fun _ _ hp => of_decide_eq_true hp) (runs_execIf hexec)
  obtain ⟨-, h⟩ := @arena_serves arenaBuffer _ _ _ _
    ⟨by decide, by decide⟩ (by rfl) hrun
  exact ⟨r, congrArg Prod.fst hr,
    (h (.reallocate 4208 200 300) True.intro).mpr (of_decide_eq_true (congrArg Prod.snd hr))⟩

/-- The size rounds to 0; and behind an aligned block of one byte the next address is odd. -/
theorem arena_serves_broken :
    ¬ ArenaServes (arenaBoot ⟨arenaBuffer, 0⟩ fun _ => 0) (.allocate (BitVec.allOnes 64)) ∧
      ∃ r, Runs arenaStep (fun _ call => ArenaLegal call) (arenaBoot ⟨arenaBuffer, 0⟩ fun _ => 0)
        [.allocateAligned 1 16] r ∧ ¬ ArenaServes r (.allocate 16) := by
  refine ⟨fun h => ?_, _, .step .start (by decide) rfl, fun h => ?_⟩
  · obtain ⟨hfail, -⟩ | ⟨p, hp, -, hown⟩ := h.served _ _ rfl
    · exact absurd (hfail 4096 rfl) (by decide)
    · cases hp
      exact absurd hown.upper (by decide)
  · obtain ⟨hfail, -⟩ | ⟨p, hp, -, hown⟩ := h.served _ _ rfl
    · exact absurd (hfail 4097 rfl) (by decide)
    · cases hp
      exact absurd hown.aligned (by decide)

end Slightx
