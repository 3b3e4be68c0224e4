/-
  File:      Slightx/Mem/HeapRuns.lean
  Subject:   What is allocated stays where it was put, through any sequence of calls.

  Source: kernel/mem/heap.c (the allocator).

  A run is a sequence of calls of the allocator on live pointers. Between two calls other code
  writes to the live payloads, and to everything outside the blocks.

  * `LiveIn` -- what the memory and the blocks hold for a live pointer; its header says it all;
  * `HeapInv` -- the blocks lie apart, and each belongs to one live pointer at most;
  * `heapInv_add`, `heapInv_drop`, `heapInv_kept` -- a block handed out, a block taken back, bytes
    elsewhere written;
  * **`heap_keeps`** -- so in every run each live pointer is aligned as asked, is in its block with
    its header, and is found by `heap__hdr_for`; and `heap_reallocate` keeps the payload
-/
import Slightx.Lib.Machine
import Slightx.Mem.Heap

namespace Slightx

open Lib Function

/-! ## 1. Calls -/

/-- What a live pointer was asked for. -/
structure Alloc where
  size : Usize
  align : Usize
  deriving DecidableEq, Repr

structure HeapSys (ω : Type) where
  state : HeapState ω
  live : Uptr → Option Alloc

inductive HeapEvent (ω : Type) where
  | allocate (sz : Usize)
  | allocateAligned (sz align : Usize)
  | reallocate (ptr : Uptr) (newsz : Usize)
  | deallocate (ptr : Uptr)
  /-- other code runs -/
  | others (mem : Mem) (rest : ω)

section Calls

variable {ω : Type}

/-- The pointer a call returned is live from then on. -/
def HeapSys.taken (live : Uptr → Option Alloc) (x : Alloc) :
    Except Fault (Uptr × HeapState ω) → Option (HeapSys ω)
  | .ok (p, t) => some { state := t, live := if p = 0 then live else update live p (some x) }
  | .error _ => none

/-- A pointer that was not moved and not freed stays live. -/
def HeapSys.moved (live : Uptr → Option Alloc) (ptr : Uptr) (x : Alloc) :
    Except Fault (Uptr × HeapState ω) → Option (HeapSys ω)
  | .ok (p, t) =>
      HeapSys.taken (if p = 0 ∧ x.size ≠ 0 then live else update live ptr none) x (.ok (p, t))
  | .error _ => none

def HeapSys.dropped (live : Uptr → Option Alloc) (ptr : Uptr) :
    Except Fault (Unit × HeapState ω) → Option (HeapSys ω)
  | .ok (_, t) => some { state := t, live := update live ptr none }
  | .error _ => none

def heapStep (a : Liballoc ω) (r : HeapRegion) (s : HeapSys ω) : HeapEvent ω → Option (HeapSys ω)
  | .allocate sz => HeapSys.taken s.live ⟨sz, ALIGNOF_MAX_ALIGN⟩ (heapAllocate a sz s.state)
  | .allocateAligned sz align =>
      HeapSys.taken s.live ⟨sz, align⟩ (heapAllocateAligned a sz align s.state)
  | .reallocate ptr newsz =>
      let old := (s.live ptr).getD ⟨0, ALIGNOF_MAX_ALIGN⟩
      HeapSys.moved s.live ptr ⟨newsz, old.align⟩
        (heapReallocate a r ptr old.size newsz s.state)
  | .deallocate ptr => HeapSys.dropped s.live ptr (heapDeallocate a r ptr s.state)
  | .others mem rest => some { s with state := { s.state with mem, rest } }

/-- Alignments are powers of two, and pointers are live ones (or `NULL`). Other code leaves the
    bytes of the blocks alone that are not payload. -/
def HeapLegal (s : HeapSys ω) : HeapEvent ω → Prop
  | .allocate sz => NoWrap sz ALIGNOF_MAX_ALIGN
  | .allocateAligned sz align => (∃ k, align.toNat = 2 ^ k) ∧ NoWrap sz (heapAlign align)
  | .reallocate ptr newsz => ptr = 0 ∧ NoWrap newsz ALIGNOF_MAX_ALIGN ∨
      ∃ x, s.live ptr = some x ∧ NoWrap newsz (heapAlign x.align)
  | .deallocate ptr => ptr = 0 ∨ ∃ x, s.live ptr = some x
  | .others mem _ => ∀ b n, s.state.blocks b = some n → ∀ y, InBlock b n y →
      (∀ p x, s.live p = some x → ¬ InBlock p x.size y) → mem y = s.state.mem y

/-- After `heap_load`. -/
def heapInit (mem : Mem) (rest : ω) : HeapSys ω :=
  { state := { mem, blocks := fun _ => none, rest }, live := fun _ => none }

end Calls

/-! ## 2. The invariant -/

/-- The header before a pointer. -/
def hdrOf (m : Mem) (p : Uptr) : HeapBlockHdr := readHdr m (p - SIZEOF_HEAP_BLOCK_HDR)

/-- **A live pointer.** -/
structure LiveIn (blocks : Uptr → Option Usize) (m : Mem) (p : Uptr) (x : Alloc) : Prop where
  size : x.size ≠ 0
  pow : ∃ k, x.align.toNat = 2 ^ k
  align : (hdrOf m p).align = heapAlign x.align
  block : blocks (hdrOf m p).base = some (hdrOf m p).size
  placed : Placed (hdrOf m p).base (hdrOf m p).size x.size (heapAlign x.align) p
  offset : p.toNat = (hdrOf m p).base.toNat + 32 + (hdrOf m p).offset.toNat
  slack : (hdrOf m p).size.toNat = x.size.toNat + 32 + ((heapAlign x.align).toNat - 1)

/-- **The heap is in order.** -/
structure HeapInv (r : HeapRegion) (blocks : Uptr → Option Usize) (m : Mem)
    (live : Uptr → Option Alloc) : Prop where
  null : ∀ n, blocks 0 ≠ some n
  inside : ∀ b n, blocks b = some n → r.heapStart.toNat ≤ b.toNat ∧
    b.toNat + n.toNat ≤ r.heapEnd.toNat
  apart : ∀ b n b' n', blocks b = some n → blocks b' = some n' → b ≠ b' →
    b.toNat + n.toNat ≤ b'.toNat ∨ b'.toNat + n'.toNat ≤ b.toNat
  lives : ∀ p x, live p = some x → LiveIn blocks m p x
  owner : ∀ p x q y, live p = some x → live q = some y →
    (hdrOf m p).base = (hdrOf m q).base → p = q

section Inv

variable {ω : Type} {a : Liballoc ω} {r : HeapRegion} {blocks kept : Uptr → Option Usize}
  {m m' : Mem} {live : Uptr → Option Alloc} {p : Uptr} {x : Alloc}

theorem heapInv_init (r : HeapRegion) (m : Mem) :
    HeapInv r (fun _ => none) m (fun _ => none) :=
  ⟨fun _ h => (nomatch h), fun _ _ h => (nomatch h), fun _ _ _ _ h => (nomatch h),
    fun _ _ h => (nomatch h), fun _ _ _ _ h => (nomatch h)⟩

/-- A power of two is a valid alignment. -/
theorem valid_of_pow {align : Usize} (h : ∃ k, align.toNat = 2 ^ k) :
    isAlignmentValid align = true := by
  obtain ⟨k, hk⟩ := h
  have hpos : 0 < 2 ^ k := Nat.two_pow_pos k
  have hone : (1 : Usize).toNat = 1 := rfl
  have hsub : (align - 1).toNat = 2 ^ k - 1 := by
    rw [BitVec.toNat_sub_of_le (by rw [BitVec.le_def, hone]; omega), hone, hk]
  unfold isAlignmentValid
  rw [beq_iff_eq]
  refine BitVec.eq_of_toNat_eq ?_
  rw [BitVec.toNat_and, hsub, hk, Nat.and_two_pow_sub_one_eq_mod, Nat.mod_self]
  rfl

/-- Aligned for the alignment in use is aligned as asked. -/
theorem aligned_of_pow {align : Usize} (h : ∃ k, align.toNat = 2 ^ k)
    (hp : p.toNat % (heapAlign align).toNat = 0) : p.toNat % align.toNat = 0 := by
  obtain ⟨k, hk⟩ := h
  unfold heapAlign at hp
  split at hp
  · rename_i hlt
    have hlt : align.toNat < 2 ^ 4 := hlt
    have hk4 : k < 4 := by
      rw [hk] at hlt
      exact (Nat.pow_lt_pow_iff_right (by decide)).mp hlt
    have hdvd : align.toNat ∣ ALIGNOF_MAX_ALIGN.toNat := by
      rw [hk]
      exact Nat.pow_dvd_pow 2 (Nat.le_of_lt hk4)
    exact Nat.mod_eq_zero_of_dvd (Nat.dvd_trans hdvd (Nat.dvd_of_mod_eq_zero hp))
  · exact hp

/-- The header is in the block, before the payload. -/
theorem liveIn_hdr (h : LiveIn blocks m p x) :
    (p - SIZEOF_HEAP_BLOCK_HDR).toNat = p.toNat - 32 ∧ ∀ k, k < 32 →
      InBlock (hdrOf m p).base (hdrOf m p).size (p.toNat - 32 + k) := by
  have hlow := h.placed.low
  have hroom := h.placed.room
  have h32 : SIZEOF_HEAP_BLOCK_HDR.toNat = 32 := rfl
  refine ⟨?_, fun k hk => ⟨by omega, by omega⟩⟩
  rw [BitVec.toNat_sub_of_le (by rw [BitVec.le_def, h32]; omega), h32]

/-- Bytes outside its header do not matter to a live pointer. -/
theorem hdrOf_congr (h : LiveIn blocks m p x)
    (hm : ∀ y, InBlock (hdrOf m p).base (hdrOf m p).size y → ¬ InBlock p x.size y → m' y = m y) :
    hdrOf m' p = hdrOf m p := by
  obtain ⟨hsub, hin⟩ := liveIn_hdr h
  have hlow := h.placed.low
  refine readHdr_congr fun k hk => ?_
  rw [hsub]
  exact hm _ (hin k hk) fun hp => by have := hp.1; omega

theorem liveIn_congr (h : LiveIn blocks m p x) (hh : hdrOf m' p = hdrOf m p)
    (hb : kept (hdrOf m p).base = some (hdrOf m p).size) : LiveIn kept m' p x := by
  refine ⟨h.size, h.pow, ?_, ?_, ?_, ?_, ?_⟩
  · rw [hh]
    exact h.align
  · rw [hh]
    exact hb
  · rw [hh]
    exact h.placed
  · rw [hh]
    exact h.offset
  · rw [hh]
    exact h.slack

/-- **Bytes written where no header is.** -/
theorem heapInv_mem (hi : HeapInv r blocks m live)
    (hh : ∀ p x, live p = some x → hdrOf m' p = hdrOf m p) : HeapInv r blocks m' live := by
  refine ⟨hi.null, hi.inside, hi.apart, fun p x hp => ?_, fun p x q y hp hq he => ?_⟩
  · exact liveIn_congr (hi.lives p x hp) (hh p x hp) (hi.lives p x hp).block
  · rw [hh p x hp, hh q y hq] at he
    exact hi.owner p x q y hp hq he

theorem heapInv_kept (hi : HeapInv r blocks m live) (hk : BlocksKept blocks m m') :
    HeapInv r blocks m' live := by
  refine heapInv_mem hi fun p x hp => hdrOf_congr (hi.lives p x hp) fun y hy _ => ?_
  exact hk _ _ (hi.lives p x hp).block y hy

/-- **A block taken back**, with the pointer into it. -/
theorem heapInv_drop (hi : HeapInv r blocks m live) (hp : live p = some x) :
    HeapInv r (update blocks (hdrOf m p).base none) m (update live p none) := by
  have hsub : ∀ b n, update blocks (hdrOf m p).base none b = some n → blocks b = some n := by
    intro b n hb
    by_cases he : b = (hdrOf m p).base
    · rw [he, update_self] at hb
      cases hb
    · rwa [update_of_ne he] at hb
  have hlive : ∀ q y, update live p none q = some y → q ≠ p ∧ live q = some y := by
    intro q y hq
    by_cases he : q = p
    · rw [he, update_self] at hq
      cases hq
    · rw [update_of_ne he] at hq
      exact ⟨he, hq⟩
  refine ⟨fun n hn => hi.null n (hsub _ _ hn), fun b n hb => hi.inside b n (hsub b n hb),
    fun b n b' n' hb hb' => hi.apart b n b' n' (hsub b n hb) (hsub b' n' hb'), fun q y hq => ?_,
    fun q y q' y' hq hq' => hi.owner q y q' y' (hlive q y hq).2 (hlive q' y' hq').2⟩
  obtain ⟨hne, hq⟩ := hlive q y hq
  refine liveIn_congr (hi.lives q y hq) rfl ?_
  rw [update_of_ne fun he => hne (hi.owner q y p x hq hp he)]
  exact (hi.lives q y hq).block

/-- **A block handed out**, with a new pointer and its header in it. -/
theorem heapInv_add {base : Uptr} (hi : HeapInv r kept m live) (hx : x.size ≠ 0)
    (hpow : ∃ k, x.align.toNat = 2 ^ k) (hn : NoWrap x.size (heapAlign x.align))
    (hf : Fits r kept base (heapTotal x.size (heapAlign x.align))) (hk : BlocksKept kept m m') :
    HeapInv r (update kept base (some (heapTotal x.size (heapAlign x.align))))
      (writeHdr m' (heapPtr base (heapAlign x.align) - SIZEOF_HEAP_BLOCK_HDR)
        (heapHdr base (heapTotal x.size (heapAlign x.align)) (heapAlign x.align)))
      (update live (heapPtr base (heapAlign x.align)) (some x)) := by
  have hleast := heapAlign_least x.align
  have hplaced := placed_of_fits (by omega) hf rfl hn
  have htotal := toNat_heapTotal_noWrap (by omega) hn
  generalize hal : heapAlign x.align = align at *
  generalize htot : heapTotal x.size align = total at *
  generalize hptr : heapPtr base align = ptr at *
  have hlow := hplaced.low
  have hroom := hplaced.room
  have h32 : SIZEOF_HEAP_BLOCK_HDR.toNat = 32 := rfl
  have hsub : (ptr - SIZEOF_HEAP_BLOCK_HDR).toNat = ptr.toNat - 32 := by
    rw [BitVec.toNat_sub_of_le (by rw [BitVec.le_def, h32]; omega), h32]
  -- the blocks that were there do not have the header
  have hk' : BlocksKept kept m (writeHdr m' (ptr - SIZEOF_HEAP_BLOCK_HDR)
      (heapHdr base total align)) := by
    intro b n hb y hy
    rw [writeHdr_out, hk b n hb y hy]
    rw [hsub]
    intro hin
    have hy1 := hy.1
    have hy2 := hy.2
    rcases hf.apart b n hb with h | h
    · omega
    · omega
  have hold := heapInv_kept hi hk'
  have hself : hdrOf (writeHdr m' (ptr - SIZEOF_HEAP_BLOCK_HDR) (heapHdr base total align)) ptr
      = heapHdr base total align := readHdr_writeHdr _ _ _
  have hne : ∀ b n, kept b = some n → b ≠ base := by
    rintro b n hb rfl
    rw [hf.fresh] at hb
    cases hb
  have hoff : (ptr - (base + SIZEOF_HEAP_BLOCK_HDR)).toNat = ptr.toNat - (base.toNat + 32) := by
    have hstop := r.heapEnd.isLt
    have hbelow := hf.below
    have hraw : (base + SIZEOF_HEAP_BLOCK_HDR).toNat = base.toNat + 32 := by
      rw [BitVec.toNat_add, h32, Nat.mod_eq_of_lt (by omega)]
    rw [BitVec.toNat_sub_of_le (by rw [BitVec.le_def, hraw]; exact hlow), hraw]
  refine ⟨fun n hz => ?_, fun b n hb => ?_, fun b n b' n' hb hb' hbb => ?_, fun q y hq => ?_,
    fun q y q' y' hq hq' he => ?_⟩
  · rw [update_of_ne (Ne.symm hf.null)] at hz
    exact hi.null n hz
  · by_cases he : b = base
    · rw [he, update_self] at hb
      rw [he, ← Option.some.inj hb]
      exact ⟨hf.above, hf.below⟩
    · rw [update_of_ne he] at hb
      exact hi.inside b n hb
  · by_cases he : b = base
    · have he' : b' ≠ base := fun h => hbb (he.trans h.symm)
      rw [he, update_self] at hb
      rw [update_of_ne he'] at hb'
      rw [he, ← Option.some.inj hb]
      exact hf.apart b' n' hb'
    · rw [update_of_ne he] at hb
      by_cases he' : b' = base
      · rw [he', update_self] at hb'
        rw [he', ← Option.some.inj hb']
        exact (hf.apart b n hb).symm
      · rw [update_of_ne he'] at hb'
        exact hi.apart b n b' n' hb hb' hbb
  · by_cases he : q = ptr
    · rw [he, update_self] at hq
      obtain rfl := Option.some.inj hq
      rw [he]
      refine ⟨hx, hpow, ?_, ?_, ?_, ?_, ?_⟩
      · rw [hself, hal]
        rfl
      · rw [hself]
        exact update_self _ _ _
      · rw [hself, hal]
        exact hplaced
      · rw [hself]
        show ptr.toNat = base.toNat + 32
          + (heapPtr base align - (base + SIZEOF_HEAP_BLOCK_HDR)).toNat
        rw [hptr, hoff]
        omega
      · rw [hself, hal]
        exact htotal
    · rw [update_of_ne he] at hq
      have hl := hold.lives q y hq
      refine liveIn_congr hl rfl ?_
      rw [update_of_ne (hne _ _ hl.block)]
      exact hl.block
  · by_cases hqp : q = ptr
    · by_cases hqp' : q' = ptr
      · rw [hqp, hqp']
      · rw [update_of_ne hqp'] at hq'
        rw [hqp, hself] at he
        exact absurd he.symm (hne _ _ (hold.lives q' y' hq').block)
    · rw [update_of_ne hqp] at hq
      by_cases hqp' : q' = ptr
      · rw [hqp', hself] at he
        exact absurd he (hne _ _ (hold.lives q y hq).block)
      · rw [update_of_ne hqp'] at hq'
        exact hold.owner q y q' y' hq hq' he

/-- **`heap__hdr_for` accepts** every live pointer. -/
theorem hdrFits_of_live (hi : HeapInv r blocks m live) (hp : live p = some x) :
    HdrFits r m p := by
  have hl := hi.lives p x hp
  obtain ⟨hlow, hhigh⟩ := hi.inside _ _ hl.block
  have hleast := heapAlign_least x.align
  have hvalid := heapAlign_valid (valid_of_pow hl.pow)
  have hplaced := hl.placed
  have hoff := hl.offset
  have hslack := hl.slack
  have hsize : x.size.toNat ≠ 0 := fun h => hl.size (BitVec.eq_of_toNat_eq h)
  refine hdrFits_of_numbers ?_ ⟨?_, ?_, ?_, ?_, hlow, hhigh, hoff, ?_⟩ ?_ ?_
  · show isAlignmentValid (hdrOf m p).align = true
    rw [hl.align]
    exact hvalid
  · show 16 ≤ (hdrOf m p).align.toNat
    rw [hl.align]
    exact hleast
  · show (hdrOf m p).align.toNat ≤ 2 ^ 63
    rw [hl.align]
    exact le_of_isAlignmentValid hvalid
  · show (hdrOf m p).offset.toNat < (hdrOf m p).align.toNat
    rw [hl.align]
    have hup := hplaced.high
    omega
  · show 32 + ((hdrOf m p).align.toNat - 1) ≤ (hdrOf m p).size.toNat
    rw [hl.align]
    omega
  · show p.toNat % (hdrOf m p).align.toNat = 0
    rw [hl.align]
    exact hplaced.aligned
  · intro h0
    have hb := hl.block
    have h0 : (hdrOf m p).base = 0 := h0
    rw [h0] at hb
    exact hi.null _ hb
  · have hroom := hplaced.room
    omega

end Inv

/-! ## 3. One call -/

section Steps

variable {ω : Type} {a : Liballoc ω} {r : HeapRegion} {s s' t : HeapSys ω} {e : HeapEvent ω}
  {p : Uptr} {x : Alloc}

def HeapSys.InOrder (r : HeapRegion) (s : HeapSys ω) : Prop :=
  HeapInv r s.state.blocks s.state.mem s.live

/-- `NULL` is never live. -/
theorem live_null (hi : s.InOrder r) : s.live 0 = none := by
  cases h : s.live 0 with
  | none => rfl
  | some x => exact absurd rfl (hdrFits_of_live hi h).null

/-- **An allocation** returns `NULL` and changes nothing, or adds a pointer. -/
theorem wp_allocate_inOrder (hc : a.Meets r) {live : Uptr → Option Alloc} {u : HeapState ω}
    (hi : HeapInv r u.blocks u.mem live) {sz align : Usize} (hpow : ∃ k, align.toNat = 2 ^ k)
    (hn : NoWrap sz (heapAlign align)) :
    wp (heapAllocateAligned a sz align) u fun p t =>
      HeapInv r t.blocks t.mem (if p = 0 then live else update live p (some ⟨sz, align⟩)) := by
  by_cases hsz : sz = 0
  · unfold heapAllocateAligned
    rw [if_pos hsz, wp_pure, if_pos rfl]
    exact hi
  · obtain ⟨q, t, hm, hk, hans⟩ := malloc_answers hc (heapTotal sz (heapAlign align)) u
    rw [wp_heapAllocateAligned hsz (valid_of_pow hpow) hm]
    rcases hans with ⟨rfl, ht⟩ | ⟨hf, ht⟩
    · rw [if_pos rfl, if_pos rfl, ht]
      exact heapInv_kept hi hk
    · have hadd := heapInv_add (x := ⟨sz, align⟩) hi hsz hpow hn hf hk
      have hplaced := placed_of_fits (by have := heapAlign_least align; omega) hf rfl hn
      have hnull : heapPtr q (heapAlign align) ≠ 0 := by
        intro h0
        have hlow := hplaced.low
        rw [h0] at hlow
        have hzero : (0 : Uptr).toNat = 0 := rfl
        omega
      rw [if_neg hf.null, if_neg hnull]
      show HeapInv r t.blocks _ _
      rw [ht]
      exact hadd

/-- What a `heap_reallocate` to `newsz` bytes leaves of the payload at `p`: its first bytes, at an
    address aligned as asked. -/
structure Moves (u : HeapState ω) (p : Uptr) (x : Alloc) (newsz : Usize) (q : Uptr)
    (t : HeapState ω) : Prop where
  payload : ∀ i, i < min x.size.toNat newsz.toNat → t.mem (q.toNat + i) = u.mem (p.toNat + i)
  aligned : q.toNat % x.align.toNat = 0

/-- liballoc has no block for the new size. -/
def ReallocRefused (a : Liballoc ω) (u : HeapState ω) (p : Uptr) (newsz : Usize) : Prop :=
  ∃ t, a.realloc (hdrOf u.mem p).base (heapTotal newsz (hdrOf u.mem p).align) u = .ok (0, t)

/-- **A reallocation of a live pointer.** -/
theorem wp_reallocate_inOrder (hc : a.Meets r) (hi : s.InOrder r) (hp : s.live p = some x)
    {newsz : Usize} (hn : NoWrap newsz (heapAlign x.align)) :
    wp (heapReallocate a r p x.size newsz) s.state fun q t =>
      ((q ≠ 0 → Moves s.state p x newsz q t) ∧
        (q = 0 ↔ newsz = 0 ∨ ReallocRefused a s.state p newsz)) ∧
      HeapInv r t.blocks t.mem (if q = 0 then if newsz = 0 then update s.live p none else s.live
        else update (update s.live p none) q (some ⟨newsz, x.align⟩)) := by
  have hl := hi.lives p x hp
  have hfits := hdrFits_of_live hi hp
  have hhdr : readHdr s.state.mem (p - SIZEOF_HEAP_BLOCK_HDR) = hdrOf s.state.mem p := rfl
  have hdrop := heapInv_drop hi hp
  by_cases hnew : newsz = 0
  · unfold heapReallocate
    rw [if_neg hfits.null, wp_bind, wp_onBytes, wp_heapHdrFor hfits, wp_bind, wp_get]
    dsimp only
    rw [hhdr, if_pos hnew, wp_bind]
    refine wp_mono (hc.free _ _ _ hl.block) fun _ t ht =>
      (wp_pure _ _ _).mpr ⟨⟨fun h => absurd rfl h, iff_of_true rfl (Or.inl hnew)⟩, ?_⟩
    rw [if_pos rfl, if_pos hnew, ht.2]
    exact heapInv_kept hdrop ht.1
  · obtain ⟨q, t, hm, hk, hans⟩ :=
      hc.realloc _ _ (heapTotal newsz (hdrOf s.state.mem p).align) s.state hl.block
    rw [wp_heapReallocate hfits hhdr hnew hm]
    rw [hl.align] at hm hans ⊢
    have hleast := heapAlign_least x.align
    have htotal := toNat_heapTotal_noWrap (by omega) hn
    rcases hans with ⟨rfl, hans⟩ | ⟨hf, ht, hcopied⟩
    · rw [if_pos rfl]
      refine ⟨⟨fun h => absurd rfl h, iff_of_true rfl (Or.inr ⟨t, by rw [hl.align]; exact hm⟩)⟩, ?_⟩
      rw [if_pos rfl, if_neg hnew]
      rcases hans with ⟨ht, hkept⟩ | ⟨hzero, _⟩
      · rw [ht]
        exact heapInv_kept hi hkept
      · rw [hzero] at htotal
        have h0 : (0 : Usize).toNat = 0 := rfl
        omega
    · rw [if_neg hf.null]
      have hplaced := placed_of_fits (by omega) hf rfl hn
      have hlow := hplaced.low
      have hhigh := hplaced.high
      have hroom := hplaced.room
      have hoff := hl.offset
      have hup := hl.placed.high
      have hold := hl.placed.room
      have hslack := hl.slack
      have h32 : SIZEOF_HEAP_BLOCK_HDR.toNat = 32 := rfl
      have hzero : (0 : Uptr).toNat = 0 := rfl
      have hstop := r.heapEnd.isLt
      have hbelow := hf.below
      have hnull : heapPtr q (heapAlign x.align) ≠ 0 := by
        intro h0
        rw [h0] at hlow
        omega
      have hfrom : (q + SIZEOF_HEAP_BLOCK_HDR + (hdrOf s.state.mem p).offset).toNat
          = q.toNat + 32 + (hdrOf s.state.mem p).offset.toNat := by
        rw [BitVec.toNat_add, BitVec.toNat_add, h32, Nat.mod_eq_of_lt (a := _ + 32) (by omega),
          Nat.mod_eq_of_lt (by omega)]
      have hfrom0 : q + SIZEOF_HEAP_BLOCK_HDR + (hdrOf s.state.mem p).offset ≠ 0 := by
        intro h0
        rw [h0] at hfrom
        omega
      -- all the caller asks for is copied: the old payload is not shorter than its size
      have hlen : (reallocCopy (hdrOf s.state.mem p) x.size newsz).toNat
          = min x.size.toNat newsz.toNat := by
        rw [reallocCopy_le x.size newsz (by omega)]
        omega
      refine (wp_relocate hnull hfrom0 _ _ _).mpr ?_
      rw [hfrom, hlen]
      refine ⟨⟨fun _ => ⟨fun i hilt => ?_, aligned_of_pow hl.pow hplaced.aligned⟩,
        iff_of_false hnull ?_⟩, ?_⟩
      · have hsub : (heapPtr q (heapAlign x.align) - SIZEOF_HEAP_BLOCK_HDR).toNat
            = (heapPtr q (heapAlign x.align)).toNat - 32 := by
          rw [BitVec.toNat_sub_of_le (by rw [BitVec.le_def, h32]; omega), h32]
        show writeHdr _ _ _ _ = _
        rw [writeHdr_out (by rw [hsub]; omega)]
        dsimp only
        rw [moved_in (by omega)]
        have hsrc := hcopied (32 + (hdrOf s.state.mem p).offset.toNat + i) (by omega)
        rw [hoff]
        calc t.mem (q.toNat + 32 + (hdrOf s.state.mem p).offset.toNat
              + ((heapPtr q (heapAlign x.align)).toNat + i - (heapPtr q (heapAlign x.align)).toNat))
            = t.mem (q.toNat + (32 + (hdrOf s.state.mem p).offset.toNat + i)) :=
              congrArg t.mem (by omega)
          _ = s.state.mem ((hdrOf s.state.mem p).base.toNat
                + (32 + (hdrOf s.state.mem p).offset.toNat + i)) := hsrc
          _ = s.state.mem ((hdrOf s.state.mem p).base.toNat + 32
                + (hdrOf s.state.mem p).offset.toNat + i) :=
              congrArg s.state.mem (by omega)
      · rintro (hzero | ⟨u, hu⟩)
        · exact hnew hzero
        · rw [hl.align, hm] at hu
          cases hu
          exact hf.null rfl
      · rw [if_neg hnull]
        show HeapInv r t.blocks _ _
        rw [ht]
        refine heapInv_add (x := ⟨newsz, x.align⟩) hdrop hnew hl.pow hn hf fun b n hb y hy => ?_
        have hapart := hf.apart b n hb
        have hy1 := hy.1
        have hy2 := hy.2
        -- the copy goes into the new block
        dsimp only
        rw [moved_out (by omega)]
        exact hk b n hb y hy

/-- **A deallocation of a live pointer.** -/
theorem wp_deallocate_inOrder (hc : a.Meets r) (hi : s.InOrder r) (hp : s.live p = some x) :
    wp (heapDeallocate a r p) s.state fun _ t =>
      HeapInv r t.blocks t.mem (update s.live p none) := by
  have hfits := hdrFits_of_live hi hp
  unfold heapDeallocate
  rw [if_neg hfits.null, wp_bind, wp_onBytes, wp_heapHdrFor hfits, wp_bind, wp_get]
  refine wp_mono (hc.free _ _ _ (hi.lives p x hp).block) fun _ t ht => ?_
  rw [ht.2]
  exact heapInv_kept (heapInv_drop hi hp) ht.1

/-- **Every call returns, and leaves the heap in order.** -/
theorem heapStep_some (hc : a.Meets r) (hi : s.InOrder r) (hlegal : HeapLegal s e) :
    ∃ s', heapStep a r s e = some s' ∧ s'.InOrder r := by
  have hmax : ∃ k, ALIGNOF_MAX_ALIGN.toNat = 2 ^ k := ⟨4, rfl⟩
  cases e with
  | allocate sz =>
      obtain ⟨p, t, hrun, h⟩ := wp_allocate_inOrder hc hi hmax hlegal
      refine ⟨_, congrArg (HeapSys.taken s.live ⟨sz, ALIGNOF_MAX_ALIGN⟩) hrun, h⟩
  | allocateAligned sz align =>
      obtain ⟨p, t, hrun, h⟩ := wp_allocate_inOrder hc hi hlegal.1 hlegal.2
      refine ⟨_, congrArg (HeapSys.taken s.live ⟨sz, align⟩) hrun, h⟩
  | reallocate ptr newsz =>
      rcases hlegal with ⟨rfl, hn⟩ | ⟨x, hp, hn⟩
      · -- `heap_reallocate` of `NULL` allocates
        obtain ⟨p, t, hrun, h⟩ := wp_allocate_inOrder hc hi hmax hn
        have hnull := live_null hi
        have hupd : update s.live 0 none = s.live := update_eq_self_iff.mpr hnull.symm
        refine ⟨{ state := t
                  live := if p = 0 then s.live
                    else update s.live p (some ⟨newsz, ALIGNOF_MAX_ALIGN⟩) }, ?_, h⟩
        show HeapSys.moved s.live 0 ⟨newsz, ((s.live 0).getD ⟨0, ALIGNOF_MAX_ALIGN⟩).align⟩
          (heapAllocateAligned a newsz ALIGNOF_MAX_ALIGN s.state) = _
        rw [hnull, hrun]
        unfold HeapSys.moved
        dsimp only
        rw [hupd, ite_self]
        rfl
      · obtain ⟨q, t, hrun, _, h⟩ := wp_reallocate_inOrder hc hi hp hn
        refine ⟨{ state := t
                  live := if q = 0 then if newsz = 0 then update s.live ptr none else s.live
                    else update (update s.live ptr none) q (some ⟨newsz, x.align⟩) }, ?_, h⟩
        show HeapSys.moved s.live ptr ⟨newsz, ((s.live ptr).getD ⟨0, ALIGNOF_MAX_ALIGN⟩).align⟩
          (heapReallocate a r ptr ((s.live ptr).getD ⟨0, ALIGNOF_MAX_ALIGN⟩).size newsz s.state) = _
        rw [hp]
        dsimp only [Option.getD_some]
        rw [hrun]
        unfold HeapSys.moved HeapSys.taken
        dsimp only
        by_cases hq : q = 0
        · by_cases hz : newsz = 0
          · rw [if_pos hq, if_pos hq, if_pos hz, if_neg fun h => h.2 hz]
          · rw [if_pos hq, if_pos hq, if_neg hz, if_pos ⟨hq, hz⟩]
        · rw [if_neg hq, if_neg hq, if_neg fun h => hq h.1]
  | deallocate ptr =>
      by_cases hnull : ptr = 0
      · subst hnull
        have hupd : update s.live 0 none = s.live := update_eq_self_iff.mpr (live_null hi).symm
        refine ⟨s, ?_, hi⟩
        show some { state := s.state, live := update s.live 0 none } = some s
        rw [hupd]
      · obtain ⟨x, hp⟩ := hlegal.resolve_left hnull
        obtain ⟨_, t, hrun, h⟩ := wp_deallocate_inOrder hc hi hp
        exact ⟨_, congrArg (HeapSys.dropped s.live ptr) hrun, h⟩
  | others mem rest =>
      refine ⟨_, rfl, heapInv_mem hi fun p x hp => ?_⟩
      refine hdrOf_congr (hi.lives p x hp) fun y hy hnot => ?_
      refine hlegal _ _ (hi.lives p x hp).block y hy fun q z hq hin => ?_
      -- a payload that has this byte is in the same block, and so is the one of this pointer
      have hq' := hi.lives q z hq
      have hlow := hq'.placed.low
      have hroom := hq'.placed.room
      have hin1 := hin.1
      have hin2 := hin.2
      have hy1 := hy.1
      have hy2 := hy.2
      by_cases hbase : (hdrOf s.state.mem p).base = (hdrOf s.state.mem q).base
      · obtain rfl := hi.owner p x q z hp hq hbase
        rw [hp] at hq
        obtain rfl := Option.some.inj hq
        exact hnot hin
      · rcases hi.apart _ _ _ _ (hi.lives p x hp).block hq'.block hbase with h | h
        · omega
        · omega

theorem heapStep_inOrder (hc : a.Meets r) (hi : s.InOrder r) (hlegal : HeapLegal s e)
    (hs : heapStep a r s e = some s') : s'.InOrder r := by
  obtain ⟨u, hu, h⟩ := heapStep_some hc hi hlegal
  rw [hs] at hu
  obtain rfl := Option.some.inj hu
  exact h

/-- What a live pointer is good for. -/
structure Good (r : HeapRegion) (s : HeapState ω) (p : Uptr) (x : Alloc) : Prop where
  aligned : p.toNat % x.align.toNat = 0
  block : ∃ base total, s.blocks base = some total ∧ base.toNat + 32 ≤ p.toNat ∧
    p.toNat + x.size.toNat ≤ base.toNat + total.toNat ∧
    (hdrOf s.mem p).base = base ∧ (hdrOf s.mem p).size = total
  found : wp (heapHdrFor r p) s.mem fun hdr m =>
    hdr = some (p - SIZEOF_HEAP_BLOCK_HDR) ∧ m = s.mem

theorem good_of_live (hi : s.InOrder r) (hp : s.live p = some x) : Good r s.state p x := by
  have hl := hi.lives p x hp
  refine ⟨aligned_of_pow hl.pow hl.placed.aligned,
    ⟨_, _, hl.block, hl.placed.low, hl.placed.room, rfl, rfl⟩, ?_⟩
  exact (wp_heapHdrFor (hdrFits_of_live hi hp) _).mpr ⟨rfl, rfl⟩

end Steps

/-- **The allocator keeps what it hands out**: in every run each live pointer is aligned as asked,
    lies behind its header in its block and is found again; each call returns; and a reallocation
    keeps the payload and the alignment, if it is for any bytes and liballoc has a block for them. -/
theorem heap_keeps {ω : Type} {a : Liballoc ω} {r : HeapRegion} (hc : a.Meets r) {mem : Mem}
    {rest : ω} {es : List (HeapEvent ω)} {s : HeapSys ω}
    (hrun : Runs (heapStep a r) HeapLegal (heapInit mem rest) es s) :
    (∀ p x, s.live p = some x → Good r s.state p x) ∧
    (∀ e, HeapLegal s e → ∃ s', heapStep a r s e = some s') ∧
    ∀ p x newsz, s.live p = some x → NoWrap newsz (heapAlign x.align) →
      wp (heapReallocate a r p x.size newsz) s.state fun q t =>
        (q ≠ 0 → Moves s.state p x newsz q t) ∧
        (q = 0 ↔ newsz = 0 ∨ ReallocRefused a s.state p newsz) := by
  have h₀ : (heapInit mem rest).InOrder r := heapInv_init r mem
  have hi : s.InOrder r := runs_inv (HeapSys.InOrder r) h₀
    (fun _ _ _ hi hlegal hs => heapStep_inOrder hc hi hlegal hs) hrun
  refine ⟨fun p x hp => good_of_live hi hp, fun e hlegal => ?_, fun p x newsz hp hn => ?_⟩
  · obtain ⟨s', hs, _⟩ := heapStep_some hc hi hlegal
    exact ⟨s', hs⟩
  · exact wp_mono (wp_reallocate_inOrder hc hi hp hn) fun _ _ h => h.1

open Classical in
/-- A heap that hands out the block at 0x1000, and for any other size the one at 0x80000. -/
noncomputable def movingBlock : Liballoc Unit where
  malloc := oneBlock.malloc
  realloc b n := fun s =>
    if Fits oneRegion s.blocks 0x80000 n then
      .ok (0x80000, { s with
        mem := fun x =>
          if 0x80000 ≤ x ∧ x < 0x80000 + n.toNat then s.mem (b.toNat + (x - 0x80000)) else s.mem x
        blocks := update (update s.blocks b none) 0x80000 (some n) })
    else .ok (0, s)
  free := oneBlock.free

theorem movingBlock_meets : movingBlock.Meets oneRegion := by
  refine ⟨oneBlock_meets.malloc, fun b k n s _ => ?_, oneBlock_meets.free⟩
  have hother : ∀ {b' : Uptr} {j : Usize}, update s.blocks b none b' = some j →
      s.blocks b' = some j := fun {b' j} hb => by
    by_cases he : b' = b
    · rw [he, update_self] at hb
      cases hb
    · rwa [update_of_ne he] at hb
  by_cases hf : Fits oneRegion s.blocks 0x80000 n
  · have hbase : (0x80000 : Uptr).toNat = 0x80000 := rfl
    have hfresh : update s.blocks b none 0x80000 = none := by
      rw [update_apply]
      split
      · rfl
      · exact hf.fresh
    refine ⟨_, _, if_pos hf, fun b' j hb x hx => if_neg fun hin => ?_, Or.inr
      ⟨⟨hf.null, hfresh, hf.above, hf.below, fun b' j hb => hf.apart b' j (hother hb)⟩, rfl,
        fun i hi => ?_⟩⟩
    · have hapart := hf.apart b' j (hother hb)
      have hlo := hx.1
      have hhi := hx.2
      omega
    · dsimp only
      rw [hbase, if_pos ⟨Nat.le_add_right _ _, by omega⟩, Nat.add_sub_cancel_left]
  · exact ⟨_, _, if_neg hf, fun _ _ _ _ _ => rfl,
      Or.inl ⟨rfl, Or.inl ⟨rfl, fun _ _ _ _ _ => rfl⟩⟩⟩

/-- Ten bytes at a multiple of 64, and then forty: they move to the next block, and the ten bytes
    with them. -/
theorem heap_keeps_moves : ∃ s : HeapSys Unit, s.live 0x1040 = some ⟨10, 64⟩ ∧
    Good oneRegion s.state 0x1040 ⟨10, 64⟩ ∧
    wp (heapReallocate movingBlock oneRegion 0x1040 10 40) s.state fun q t =>
      q = 0x80040 ∧ Moves s.state 0x1040 ⟨10, 64⟩ 40 q t := by
  have hm : movingBlock.malloc (heapTotal 10 (heapAlign 64)) emptyHeap = _ :=
    oneBlock_malloc (n := heapTotal 10 (heapAlign 64)) (by decide)
  have hstep : ∃ s, heapStep movingBlock oneRegion (heapInit (fun _ => 0) ())
      (.allocateAligned 10 64) = some s ∧ s.live 0x1040 = some ⟨10, 64⟩ ∧
      s.state.blocks = update (fun _ => none) 0x1000 (some (heapTotal 10 (heapAlign 64))) ∧
      hdrOf s.state.mem 0x1040 = heapHdr 0x1000 (heapTotal 10 (heapAlign 64)) (heapAlign 64) := by
    obtain ⟨p, t, hp, rfl, hblocks, hhdr⟩ := (wp_heapAllocateAligned (a := movingBlock) (by decide)
      (by decide) hm fun p t => p = 0x1040 ∧
        t.blocks = update (fun _ => none) 0x1000 (some (heapTotal 10 (heapAlign 64))) ∧
        hdrOf t.mem 0x1040 = heapHdr 0x1000 (heapTotal 10 (heapAlign 64)) (heapAlign 64)).mpr
      ⟨by decide, rfl, readHdr_writeHdr _ _ _⟩
    refine ⟨{ state := t, live := update (fun _ => none) 0x1040 (some ⟨10, 64⟩) },
      congrArg (HeapSys.taken (fun _ => none) ⟨10, 64⟩) hp, ?_, hblocks, hhdr⟩
    show update (fun _ => none) 0x1040 (some (⟨10, 64⟩ : Alloc)) 0x1040 = _
    exact update_self _ _ _
  obtain ⟨s, hs, hlive, hblocks, hhdr⟩ := hstep
  have hlegal : HeapLegal (heapInit (fun _ => 0) ()) (.allocateAligned 10 64) :=
    ⟨⟨6, rfl⟩, by decide⟩
  have hrun : Runs (heapStep movingBlock oneRegion) HeapLegal (heapInit (fun _ => 0) ())
      ([] ++ [.allocateAligned 10 64]) s := .step .start hlegal hs
  have hkeeps := heap_keeps movingBlock_meets hrun
  have hmoves := hkeeps.2.2 0x1040 ⟨10, 64⟩ 40 hlive (by decide)
  have h₀ : (heapInit (fun _ => 0) ()).InOrder oneRegion := heapInv_init oneRegion _
  have hi : s.InOrder oneRegion := heapStep_inOrder movingBlock_meets h₀ hlegal hs
  have hfit : Fits oneRegion s.state.blocks 0x80000 (heapTotal 40 (heapAlign 64)) := by
    refine ⟨by decide, ?_, by decide, by decide, fun b k hb => ?_⟩
    · rw [hblocks]
      rfl
    · rw [hblocks, update_apply] at hb
      split at hb
      · rename_i hb'
        cases hb
        rw [hb']
        exact Or.inr (by decide)
      · cases hb
  obtain ⟨u, hu⟩ : ∃ u, movingBlock.realloc 0x1000 (heapTotal 40 (heapAlign 64)) s.state =
      .ok (0x80000, u) := ⟨_, if_pos hfit⟩
  have hplace : wp (heapReallocate movingBlock oneRegion 0x1040 10 40) s.state fun q _ =>
      q = 0x80040 :=
    (wp_heapReallocate (hdrFits_of_live hi hlive) hhdr (by decide) hu _).mpr (by
      rw [if_neg (by decide), if_neg (by decide), wp_pure]
      decide)
  refine ⟨s, hlive, hkeeps.1 _ _ hlive, wp_mono (wp_and hplace hmoves) fun q t hq => ?_⟩
  obtain ⟨rfl, hmove, -⟩ := hq
  exact ⟨rfl, hmove (by decide)⟩

end Slightx
