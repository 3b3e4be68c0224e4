/-
  File:      Slightx/Mem/LiballocCopies.lean
  Subject:   `calloc` and `realloc`.

  Source: vendor/liballoc/src/liballoc.c.

  Neither looks at what `malloc` returned: without memory the first byte is written to the null
  pointer.

  * `CopiedUpTo` -- the loops of `liballoc_memcpy`, for ranges that may overlap
  * `ends_libCalloc` -- a block of zeros
  * **`ends_libRealloc`**, **`realloc_keeps`** -- the bytes that fit are in the new block, the old
    one is gone, and the others are as they were
-/
import Slightx.Mem.LiballocRuns

namespace Slightx

open Lib Function Relation

/-! ## 1. Bytes -/

/-- `k` of `n` bytes are copied; a byte that the copy overwrites may be lost. -/
structure CopiedUpTo (m m' : Mem) (dst src k n : Nat) : Prop where
  out : ∀ x, ¬ (dst ≤ x ∧ x < dst + k) → m' x = m x
  bytes : ∀ j, j < k → ¬ (dst ≤ src + j ∧ src + j < dst + n) → m' (dst + j) = m (src + j)

section Bytes

variable {m m' : Mem} {dst src k n j : Nat}

theorem copied_more (h : CopiedUpTo m m' dst src k n) (hle : k + j ≤ n) :
    CopiedUpTo m (moved m' (dst + k) (src + k) j) dst src (k + j) n := by
  refine ⟨fun x hx => ?_, fun i hi hfar => ?_⟩
  · rw [moved_out (by omega)]
    exact h.out x (by omega)
  · by_cases hik : i < k
    · rw [moved_out (by omega)]
      exact h.bytes i hik hfar
    · rw [moved_in (by omega), show src + k + (dst + i - (dst + k)) = src + i by omega]
      exact h.out _ (by omega)

theorem setByte_eq_moved : setByte m dst (m src) = moved m dst src 1 := by
  funext x
  by_cases hx : x = dst
  · rw [hx, setByte_same, moved_in (by omega), Nat.sub_self, Nat.add_zero]
  · rw [setByte_ne hx, moved_out (by omega)]

end Bytes

theorem wp_liballocMemcpy {dst p : Uptr} {n : Usize} {m : Mem} (hdst : dst ≠ 0) :
    wp (liballocMemcpy dst p n) m fun _ m' =>
      CopiedUpTo m m' dst.toNat p.toNat n.toNat n.toNat := by
  unfold liballocMemcpy
  rw [if_neg fun hn => hdst hn.1]
  dsimp only
  rw [wp_bind]
  -- the words, then the bytes that are left
  refine wp_mono (wp_forUp (fun i t => CopiedUpTo m t dst.toNat p.toNat (4 * i) n.toNat)
    ⟨fun _ _ => rfl, fun _ hj => absurd hj (Nat.not_lt_zero _)⟩ fun i t hi ht => ?_)
    fun _ t ht => ?_
  · rw [wp_modify]
    exact copied_more ht (by omega)
  · rw [wp_bind]
    refine wp_mono (wp_forUp (fun i t => CopiedUpTo m t dst.toNat p.toNat
      (4 * (n.toNat / 4) + i) n.toNat) ht fun i t hi ht => ?_) fun _ t ht => ?_
    · rw [wp_modify, setByte_eq_moved, Nat.add_assoc, Nat.add_assoc]
      exact copied_more ht (by omega)
    · rw [wp_pure]
      rw [Nat.div_add_mod] at ht
      exact ht

theorem wp_liballocMemset {p : Uptr} {c : Byte} {n : Usize} {m : Mem} (hp : p ≠ 0) :
    wp (liballocMemset p c n) m fun _ m' => (∀ x, ¬ InBlock p n x → m' x = m x) ∧
      ∀ x, InBlock p n x → m' x = c := by
  unfold liballocMemset
  rw [if_neg fun hn => hp hn.1, wp_bind]
  refine wp_mono (wp_forUp (fun i t => (∀ x, ¬ (p.toNat ≤ x ∧ x < p.toNat + i) → t x = m x) ∧
    ∀ x, p.toNat ≤ x ∧ x < p.toNat + i → t x = c) ⟨fun _ _ => rfl, fun x hx => ?_⟩
    fun i t hi ht => ?_) fun _ t ht => ?_
  · omega
  · rw [wp_modify]
    refine ⟨fun x hx => ?_, fun x hx => ?_⟩
    · rw [setByte_ne (by omega)]
      exact ht.1 x (by omega)
    · by_cases hxi : x = p.toNat + i
      · rw [hxi, setByte_same]
      · rw [setByte_ne hxi]
        exact ht.2 x (by omega)
  · rw [wp_pure]
    exact ht

/-! ## 2. The calls -/

section Copies

variable {ω : Type} {src : PageSource ω} {R : (Uptr → Option Nat) → ω → Prop} {E : Fault → Prop}
  {spans : Uptr → Option Nat} {blocks : Uptr → Option Usize} {area : Uptr → Option Extent}
  {lists : Nat → List Uptr} {s : LibState ω} {p : Uptr} {n k nobj size : Usize}

theorem signExtend_small {x : U32} (h : x.toNat < 2 ^ 31) :
    (x.signExtend 64 : U64).toNat = x.toNat := by
  have hmsb : x.msb = false := by
    rw [BitVec.msb_eq_false_iff_two_mul_lt]
    omega
  rw [BitVec.toNat_signExtend, hmsb, if_neg Bool.false_ne_true, Nat.add_zero, BitVec.toNat_setWidth,
    Nat.mod_eq_of_lt (by omega)]

theorem le_signExtend (x : U32) : x.toNat ≤ (x.signExtend 64 : U64).toNat := by
  have hx := x.isLt
  rw [BitVec.toNat_signExtend, BitVec.toNat_setWidth, Nat.mod_eq_of_lt (by omega)]
  exact Nat.le_add_right _ _

/-- **`calloc`**, for products that are counted in an `int`. -/
theorem ends_libCalloc (hsrc : src.Meets R E) (h : LibInv spans blocks area lists s)
    (hR : R spans s.pages) (hpos : 0 < nobj.toNat * size.toNat)
    (hsmall : nobj.toNat * size.toNat < 2 ^ 31) :
    ends (libCalloc src nobj size) s (fun p s' => ∃ spans' area' lists' n, R spans' s'.pages ∧
      p ≠ 0 ∧ n.toNat = nobj.toNat * size.toNat ∧
      LibInv spans' (update blocks p (some n)) area' lists' s' ∧ BlocksKept blocks s.mem s'.mem ∧
      ∀ x, InBlock p n x → s'.mem x = 0) fun e => E e ∨ e = .pageFault 0 := by
  have hprod : ((nobj * size).setWidth 32 : U32).toNat = nobj.toNat * size.toNat := by
    rw [BitVec.toNat_setWidth, BitVec.toNat_mul, Nat.mod_eq_of_lt (a := _ * _) (by omega),
      Nat.mod_eq_of_lt (by omega)]
  have hext := (signExtend_small (x := (nobj * size).setWidth 32) (by omega)).trans hprod
  unfold libCalloc
  dsimp only
  generalize (((nobj * size).setWidth 32 : U32).signExtend 64 : U64) = n at *
  rw [ends_bind]
  refine ends_mono (ends_libMalloc hsrc h hR (by omega)) (fun q s₁ hq => ?_) fun e he => .inl he
  obtain ⟨spans₁, area₁, lists₁, hR₁, hkept, ⟨rfl, -⟩ | ⟨hq0, hnone, hinv⟩⟩ := hq
  · -- the first byte goes to the null pointer
    have hn0 : n ≠ 0 := by
      rintro rfl
      have hz : (0 : Usize).toNat = 0 := rfl
      omega
    unfold onLibMem liballocMemset
    rw [ends_bind, ends_zoom, if_pos ⟨rfl, hn0⟩, ends_throw]
    exact .inr rfl
  · unfold onLibMem
    rw [ends_bind, ends_zoom]
    refine ends_mono (ends_of_wp (wp_liballocMemset hq0)) (fun _ m' hm => ?_) fun e he => he
    rw [ends_pure]
    refine ⟨spans₁, area₁, lists₁, n, hR₁, hq0, hext,
      inv_write hinv (update_self ..) hm.1, ?_, hm.2⟩
    intro b l hb x hx
    have hbq : b ≠ q := by
      rintro rfl
      rw [hnone] at hb
      cases hb
    have hb₁ : update blocks q (some n) b = some l := (update_of_ne hbq ..).trans hb
    exact (hm.1 x (blocks_apart hinv hb₁ (update_self ..) hbq hx)).trans (hkept b l hb x hx)

/-- How many bytes `realloc` copies. -/
def reallocBytes (s : LibState ω) (p : Uptr) (size : Usize) : Usize :=
  let realSize : U32 := (s.tag (p - SIZEOF_BOUNDARY_TAG)).size
  (if size < realSize.signExtend 64 then size.setWidth 32 else realSize).signExtend 64

theorem reallocBytes_bounds (h : LibInv spans blocks area lists s) (hp : blocks p = some n)
    (hk : k.toNat < 2 ^ 31) : (reallocBytes s p k).toNat ≤ k.toNat ∧
      (n.toNat ≤ (reallocBytes s p k).toNat ∨ (reallocBytes s p k).toNat = k.toNat) := by
  obtain ⟨a, rfl, -, -, hsize, -⟩ := h.core.live p n hp
  have hlow : (k.setWidth 32 : U32).toNat = k.toNat := by
    rw [BitVec.toNat_setWidth, Nat.mod_eq_of_lt (by omega)]
  unfold reallocBytes
  rw [BitVec.add_sub_cancel]
  dsimp only
  split
  · rw [signExtend_small (by omega), hlow]
    exact ⟨Nat.le_refl _, .inr rfl⟩
  · rename_i hle
    rw [BitVec.lt_def, Nat.not_lt] at hle
    exact ⟨hle, .inl (Nat.le_trans hsize (le_signExtend _))⟩

/-- What a caller has after `realloc` moved its block from `p` to `q`. -/
structure Reallocated (blocks : Uptr → Option Usize) (p : Uptr) (n : Usize) (q : Uptr) (k : Usize)
    (m m' : Mem) : Prop where
  null : q ≠ 0
  fresh : blocks q = none
  apart : ∀ b l, blocks b = some l → ∀ x, InBlock b l x → ¬ InBlock q k x
  kept : BlocksKept (update blocks p none) m m'
  bytes : ∀ i, i < n.toNat → i < k.toNat → m' (q.toNat + i) = m (p.toNat + i)

/-- **`realloc`** of a block that is not empty, to a size that is not 0. -/
theorem ends_libRealloc (hsrc : src.Meets R E) (h : LibInv spans blocks area lists s)
    (hR : R spans s.pages) (hp : blocks p = some n) (hn : 0 < n.toNat) (hk0 : 0 < k.toNat)
    (hk : k.toNat < 2 ^ 31) :
    ends (libRealloc src p k) s (fun q s' => Reallocated blocks p n q k s.mem s'.mem ∧
      ∃ spans' area' lists', R spans' s'.pages ∧
        LibInv spans' (update (update blocks q (some k)) p none) area' lists' s')
      fun e => E e ∨ e = .pageFault 0 ∧ ∃ t, libMalloc src k s = .ok (0, t) := by
  have hp0 : p ≠ 0 := by
    rintro rfl
    obtain ⟨a, hpa, -, ha, -⟩ := h.core.live 0 n hp
    have hpos := toNat_payload h.core ha.1
    rw [← hpa] at hpos
    have hz : (0 : Uptr).toNat = 0 := rfl
    omega
  have hkne : k ≠ 0 := by
    rintro rfl
    exact Nat.lt_irrefl 0 hk0
  obtain ⟨hle, hmin⟩ := reallocBytes_bounds h hp hk
  unfold libRealloc
  rw [if_neg hkne, if_neg hp0, ends_bind, ends_get]
  dsimp only
  rw [show (if k < (s.tag (p - SIZEOF_BOUNDARY_TAG)).size.signExtend 64 then k.setWidth 32
    else (s.tag (p - SIZEOF_BOUNDARY_TAG)).size).signExtend 64 = reallocBytes s p k from rfl]
  generalize reallocBytes s p k = c at *
  rw [ends_bind]
  have hq := ends_libMalloc hsrc h hR hk
  rcases hx : libMalloc src k s with e | ⟨q, s₁⟩
  · exact (ends_of_stops hx).mpr (.inl ((ends_of_stops hx).mp hq))
  rw [ends_of_eq hx] at hq ⊢
  obtain ⟨spans₁, area₁, lists₁, hR₁, hkept, ⟨rfl, -⟩ | ⟨hq0, hnone, hinv⟩⟩ := hq
  · -- the first byte goes to the null pointer
    have hc0 : c ≠ 0 := by
      rintro rfl
      have hz : (0 : Usize).toNat = 0 := rfl
      omega
    unfold onLibMem liballocMemcpy
    rw [ends_bind, ends_zoom, if_pos ⟨rfl, hc0⟩, ends_throw]
    exact .inr ⟨rfl, s₁, rfl⟩
  · have hpq : p ≠ q := by
      rintro rfl
      rw [hnone] at hp
      cases hp
    have hq₁ : update blocks q (some k) q = some k := update_self ..
    have hb₁ : ∀ {b}, b ≠ q → update blocks q (some k) b = blocks b := fun hb =>
      update_of_ne hb ..
    unfold onLibMem
    rw [ends_bind, ends_zoom]
    refine ends_mono (ends_of_wp (wp_liballocMemcpy hq0)) (fun _ m' hm => ?_) fun e he => he
    -- the copy is a write into the new block
    have hinv₂ := inv_write hinv hq₁ fun x hx => hm.out x fun hin =>
      hx ⟨hin.1, Nat.lt_of_lt_of_le hin.2 (Nat.add_le_add_left hle _)⟩
    rw [ends_bind]
    refine ends_mono (ends_of_wp (wp_libFree hsrc hinv₂ hR₁ ((hb₁ hpq).trans hp)))
      (fun _ s₃ hs₃ => ?_) fun e he => he
    obtain ⟨spans₃, area₃, lists₃, hinv₃, hR₃, hkept₃⟩ := hs₃
    rw [ends_pure]
    have hkept₃ : BlocksKept (update (update blocks q (some k)) p none) m' s₃.mem := hkept₃
    refine ⟨⟨hq0, hnone, fun b l hb x hx => ?_, fun b l hb x hx => ?_, fun i hin hik => ?_⟩, spans₃,
      area₃, lists₃, hR₃, hinv₃⟩
    · have hbq : b ≠ q := by
        rintro rfl
        rw [hnone] at hb
        cases hb
      exact blocks_apart hinv ((hb₁ hbq).trans hb) hq₁ hbq hx
    · have hbp : b ≠ p := by
        rintro rfl
        rw [update_self] at hb
        cases hb
      rw [update_of_ne hbp] at hb
      have hbq : b ≠ q := by
        rintro rfl
        rw [hnone] at hb
        cases hb
      have hout : ¬ InBlock q k x := blocks_apart hinv ((hb₁ hbq).trans hb) hq₁ hbq hx
      calc s₃.mem x = m' x := hkept₃ b l (by rw [update_of_ne hbp, hb₁ hbq, hb]) x hx
        _ = s₁.mem x := hm.out x fun hin =>
          hout ⟨hin.1, Nat.lt_of_lt_of_le hin.2 (Nat.add_le_add_left hle _)⟩
        _ = s.mem x := hkept b l hb x hx
    · have hsrcIn : InBlock p n (p.toNat + i) := ⟨Nat.le_add_right _ _, by omega⟩
      have hdstIn : InBlock q k (q.toNat + i) := ⟨Nat.le_add_right _ _, by omega⟩
      have hout : ¬ InBlock q k (p.toNat + i) :=
        blocks_apart hinv ((hb₁ hpq).trans hp) hq₁ hpq hsrcIn
      calc s₃.mem (q.toNat + i) = m' (q.toNat + i) :=
            hkept₃ q k (by rw [update_of_ne hpq.symm, hq₁]) _ hdstIn
        _ = s₁.mem (p.toNat + i) := hm.bytes i (by omega) fun hin =>
          hout ⟨hin.1, Nat.lt_of_lt_of_le hin.2 (Nat.add_le_add_left hle _)⟩
        _ = s.mem (p.toNat + i) := hkept p n hp _ hsrcIn

/-- **`realloc` moves a block**, in every state of a run. -/
theorem realloc_keeps {given : ω → Uptr → Option Nat} {I : ω → Prop} {m : Mem} {w : ω}
    (hsrc : src.Exact given I E) (hnone : given w = fun _ => none) (hI : I w)
    (hrun : ReflTransGen (LibStep src) (fun _ => none, .start m w) (blocks, s))
    (hp : blocks p = some n) (hn : 0 < n.toNat) (hk0 : 0 < k.toNat) (hk : k.toNat < 2 ^ 31) :
    ends (libRealloc src p k) s (fun q s' => Reallocated blocks p n q k s.mem s'.mem)
      fun e => E e ∨ e = .pageFault 0 ∧ ∃ t, libMalloc src k s = .ok (0, t) := by
  obtain ⟨spans, area, lists, hinv, hR⟩ :=
    sound_run hsrc ⟨_, _, _, inv_start m w, hnone, hI⟩ hrun
  exact ends_mono (ends_libRealloc hsrc hinv hR hp hn hk0 hk) (fun _ _ hq => hq.1) fun _ he => he

end Copies

/-- A larger block for the first one. -/
theorem realloc_keeps_larger : ∃ s q s', libMalloc bumpPages 100 bumpStart = .ok (4144, s) ∧
    libRealloc bumpPages 4144 200 s = .ok (q, s') ∧
    Reallocated (update (fun _ => none) 4144 (some 100)) 4144 100 q 200 s.mem s'.mem := by
  obtain ⟨s, hs, q, t, hq, hne⟩ : ∃ s, libMalloc bumpPages 100 bumpStart = .ok (4144, s) ∧
      ∃ q t, libMalloc bumpPages 200 s = .ok (q, t) ∧ q ≠ 0 := ⟨_, rfl, _, _, rfl, by decide⟩
  have hfirst : LibStep bumpPages (fun _ => none, bumpStart)
      (update (fun _ => none) 4144 (some 100), s) := .malloc (by decide) hs
  have hends : ends (libRealloc bumpPages 4144 200) s (fun q s' =>
      Reallocated (update (fun _ => none) 4144 (some 100)) 4144 100 q 200 s.mem s'.mem) _ :=
    realloc_keeps bumpPages_exact rfl bumpStart_below (ReflTransGen.single hfirst) (update_self ..)
      (by decide) (by decide) (by decide)
  obtain ⟨q', s', hrun, hkeeps⟩ := wp_of_ends (ends_mono hends (fun _ _ h => h) fun e he => by
    -- `malloc` has a block for the copy
    obtain hbad | ⟨-, u, hu⟩ := he
    · exact hbad
    · rw [hq] at hu
      cases hu
      exact hne rfl)
  exact ⟨s, q', s', hs, hrun, hkeeps⟩

end Slightx
