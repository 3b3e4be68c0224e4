/-
  File:      Slightx/Mem/LiballocRuns.lean
  Subject:   Runs of `malloc`, `free` and writes into the blocks they handed out.

  Source: vendor/liballoc/src/liballoc.c.

  A run starts with the zeroed statics. The callers give back what they have, once, and write into
  their blocks only; requests are below 2^31 bytes. Any source of pages will do that meets its
  contract and knows what it has given (`PageSource.Exact`).

  * `sound_step`, `sound_run` -- one step, and from it every run
  * **`liballoc_apart`** -- the blocks never overlap, and no call touches the bytes of the others
  * **`liballoc_coalesces`** -- a span without a block of a caller is one free block again, and no
    more than `MAXCOMPLETE` of a size are kept
-/
import Slightx.Mem.LiballocCalls
import Mathlib.Logic.Relation

namespace Slightx

open Lib Function Relation

/-! ## 1. What the invariant gives -/

section Blocks

variable {ω : Type} {spans : Uptr → Option Nat} {blocks : Uptr → Option Usize}
  {area : Uptr → Option Extent} {lists : Nat → List Uptr} {s : LibState ω} {p q : Uptr}
  {n k : Usize} {j : Nat}

/-- **Two blocks share no byte.** -/
theorem blocks_apart (h : LibInv spans blocks area lists s) (hp : blocks p = some n)
    (hq : blocks q = some k) (hne : p ≠ q) {x : Nat} (hx : InBlock p n x) : ¬ InBlock q k x := by
  obtain ⟨a, rfl, -, ha, hasize, haroom⟩ := h.core.live p n hp
  obtain ⟨b, rfl, -, hb, hbsize, hbroom⟩ := h.core.live q k hq
  obtain ⟨A, hA⟩ := isBlock_area ha.1
  obtain ⟨B, hB⟩ := isBlock_area hb.1
  have hab : a ≠ b := fun he => hne (by rw [he])
  have hc : Clear a.toNat (s.tag a).realSize.toNat b.toNat (s.tag b).realSize.toNat :=
    h.core.tiling.apart a b A B hA hB hab
  have hpa := toNat_payload h.core ha.1
  have hpb := toNat_payload h.core hb.1
  unfold InBlock at hx ⊢
  unfold Clear at hc
  omega

/-- No block of a caller is in the span; one of no bytes may end it. -/
def Unused (blocks : Uptr → Option Usize) (q : Uptr) (j : Nat) : Prop :=
  ∀ p n, blocks p = some n → ¬ (q.toNat < p.toNat ∧ p.toNat ≤ q.toNat + 4096 * j)

/-- The span is one block, and it is free: its index is that of a free list, and this list leads to
    it. -/
structure WholeSpan (s : LibState ω) (q : Uptr) (j : Nat) : Prop where
  size : (s.tag q).realSize.toNat = 4096 * j
  left : (s.tag q).splitLeft = 0
  right : (s.tag q).splitRight = 0
  index : shelfOf (s.tag q).index = some (s.bin q)
  listed : Reaches s.shelves.node q (s.shelves.head (s.bin q))

theorem span_whole (h : LibInv spans blocks area lists s) (hq : spans q = some j)
    (hout : Unused blocks q j) : WholeSpan s q j ∧ q ∈ lists (s.bin q) := by
  have hA := h.core.base q j hq
  -- a block in use would be one of a caller
  have hfree : ∀ b, area b = some (pagesAt q j) → Listed lists b := by
    intro b hb
    by_contra hn
    have hindex : shelfOf (s.tag b).index = none := by
      by_contra hsome
      exact hn ((listed_iff h.core (isBlock_some hb)).mpr (shelfOf_ne_none.mp hsome))
    rcases h.core.owner b ⟨isBlock_some hb, hindex⟩ with hX | ⟨n, hn⟩
    · exact hX
    · obtain ⟨-, hlow, hend, -⟩ := core_place h.core hb
      have hleast := (h.core.block b _ hb).least
      have hpos := toNat_payload h.core (isBlock_some hb)
      have hlow : q.toNat ≤ b.toNat := hlow
      have hend : b.toNat + (s.tag b).realSize.toNat ≤ q.toNat + 4096 * j := hend
      exact hout _ n hn ⟨by omega, by omega⟩
  obtain ⟨-, hsize, hsides⟩ := coalesced_whole h.core.tiling h.policy.coalesced hA hfree
  obtain ⟨i, hi⟩ := hfree q hA
  have hmem : q ∈ lists (s.bin q) := by
    rw [h.policy.binned i q hi]
    exact hi
  exact ⟨⟨hsize, linkOf_none.mp (congrArg Links.prev hsides),
    linkOf_none.mp (congrArg Links.next hsides), ((h.core.shelved.member _ q).mp hmem).2,
    (dlist_reaches (h.core.shelved.list _)).mpr hmem⟩, hmem⟩

/-- **Few spans without a block are kept for a size.** -/
theorem spans_few (h : LibInv spans blocks area lists s) {l : List Uptr} (hl : l.Nodup) {i : Nat}
    (hq : ∀ q, q ∈ l → s.bin q = i ∧ ∃ j, spans q = some j ∧ Unused blocks q j) :
    (l.length : Int) ≤ MAXCOMPLETE := by
  have hsub : l ⊆ (lists i).filter s.whole := by
    intro q hql
    obtain ⟨hbin, j, hj, hout⟩ := hq q hql
    obtain ⟨hspan, hmem⟩ := span_whole h hj hout
    rw [hbin] at hmem
    exact List.mem_filter.mpr ⟨hmem, decide_eq_true ⟨hspan.left, hspan.right⟩⟩
  have hlen := (List.subperm_of_subset hl hsub).length_le
  have hcount := h.policy.counted i
  have hkept := h.policy.kept i
  rw [List.countP_eq_length_filter] at hcount
  omega

end Blocks

/-! ## 2. Runs -/

section Runs

variable {ω : Type} (src : PageSource ω)

/-- The blocks the callers have, and the allocator. -/
abbrev LibConfig (ω : Type) := (Uptr → Option Usize) × LibState ω

/-- One step: a call, or a write of a caller into its block. -/
inductive LibStep : LibConfig ω → LibConfig ω → Prop
  | malloc {blocks : Uptr → Option Usize} {s s' : LibState ω} {n : Usize} {p : Uptr} :
      n.toNat < 2 ^ 31 → libMalloc src n s = .ok (p, s') →
      LibStep (blocks, s) (if p = 0 then blocks else update blocks p (some n), s')
  | free {blocks : Uptr → Option Usize} {s s' : LibState ω} {n : Usize} {p : Uptr} :
      blocks p = some n → libFree src p s = .ok ((), s') →
      LibStep (blocks, s) (update blocks p none, s')
  | write {blocks : Uptr → Option Usize} {s : LibState ω} {n : Usize} {p : Uptr} {m : Mem} :
      blocks p = some n → (∀ x, ¬ InBlock p n x → m x = s.mem x) →
      LibStep (blocks, s) (blocks, { s with mem := m })

/-- The zeroed statics, over any memory. -/
def LibState.start (m : Mem) (w : ω) : LibState ω where
  freePages _ := 0
  completePages _ := 0
  initialized := false
  pages := w
  mem := m

/-- **The invariant of runs.** -/
def LibSound (R : (Uptr → Option Nat) → ω → Prop) (c : LibConfig ω) : Prop :=
  ∃ spans area lists, LibInv spans c.1 area lists c.2 ∧ R spans c.2.pages

variable {src} {R : (Uptr → Option Nat) → ω → Prop} {E : Fault → Prop} {c c' : LibConfig ω}
  {blocks : Uptr → Option Usize} {s : LibState ω} {m : Mem} {w : ω}

theorem inv_start (m : Mem) (w : ω) :
    LibInv (fun _ => none) (fun _ => none) (fun _ => none) (fun _ => []) (.start m w) := by
  have hno : ∀ a, ¬ IsBlock (fun _ => none) a := fun a ha => ha rfl
  refine ⟨⟨⟨fun a b he => BitVec.eq_of_toNat_eq he, nofun, nofun, nofun, nofun, nofun, nofun,
    nofun⟩, nofun, nofun, nofun, nofun, ⟨fun i => ⟨rfl, rfl, trivial, List.nodup_nil⟩,
    fun i a => ⟨nofun, fun ha => absurd ha.1 (hno a)⟩, fun a ha => absurd ha (hno a)⟩, nofun,
    fun a ha => absurd ha.1 (hno a), fun a ha => ha.elim⟩,
    ⟨nofun, nofun, fun i => rfl, fun i => ?_⟩, fun _ _ => rfl⟩
  exact (by decide : (0 : Int) ≤ MAXCOMPLETE)

/-- A write of a caller. -/
theorem inv_write {spans : Uptr → Option Nat} {area : Uptr → Option Extent}
    {lists : Nat → List Uptr} {p : Uptr} {n : Usize} {m' : Mem}
    (h : LibInv spans blocks area lists s) (hp : blocks p = some n)
    (hm : ∀ x, ¬ InBlock p n x → m' x = s.mem x) :
    LibInv spans blocks area lists { s with mem := m' } := by
  have htag : ∀ b, IsBlock area b → readTag m' b = s.tag b := by
    intro b hb
    refine readTag_congr fun k hk => hm _ fun hin => ?_
    exact payload_clear h.core hp hin ⟨b, hb, by omega, by omega⟩
  exact inv_tags h htag rfl rfl id

/-- **One step.** -/
theorem sound_step (hsrc : src.Meets R E) (h : LibSound R c) (hstep : LibStep src c c') :
    LibSound R c' := by
  obtain ⟨spans, area, lists, hinv, hR⟩ := h
  cases hstep with
  | malloc hn hrun =>
      obtain ⟨spans', area', lists', hR', -, hcase⟩ :=
        ends_ok (ends_libMalloc hsrc hinv hR hn) hrun
      rcases hcase with ⟨hp, hinv'⟩ | ⟨hp, -, hinv'⟩
      · rw [if_pos hp]
        exact ⟨spans', area', lists', hinv', hR'⟩
      · rw [if_neg hp]
        exact ⟨spans', area', lists', hinv', hR'⟩
  | free hp hrun =>
      obtain ⟨spans', area', lists', hinv', hR', -⟩ :=
        (wp_of_eq hrun).mp (wp_libFree hsrc hinv hR hp)
      exact ⟨spans', area', lists', hinv', hR'⟩
  | write hp hm => exact ⟨spans, area, lists, inv_write hinv hp hm, hR⟩

/-- **Every run.** -/
theorem sound_run (hsrc : src.Meets R E) (h : LibSound R c)
    (hrun : ReflTransGen (LibStep src) c c') : LibSound R c' := by
  induction hrun with
  | refl => exact h
  | tail _ hstep ih => exact sound_step hsrc ih hstep

/-- A source of pages that keeps a record of what it has given. -/
def PageSource.Exact (src : PageSource ω) (given : ω → Uptr → Option Nat) (I : ω → Prop)
    (E : Fault → Prop) : Prop :=
  src.Meets (fun spans w => given w = spans ∧ I w) E

variable {given : ω → Uptr → Option Nat} {I : ω → Prop}

/-- **The blocks never overlap, and a call leaves the bytes of the other blocks as they are.** -/
theorem liballoc_apart (hsrc : src.Exact given I E) (hnone : given w = fun _ => none) (hI : I w)
    (hrun : ReflTransGen (LibStep src) (fun _ => none, .start m w) (blocks, s)) :
    (∀ p n q k x, blocks p = some n → blocks q = some k → p ≠ q → InBlock p n x →
        ¬ InBlock q k x) ∧
      (∀ n p s', n.toNat < 2 ^ 31 → libMalloc src n s = .ok (p, s') →
        blocks p = none ∧ BlocksKept blocks s.mem s'.mem) ∧
      ∀ p n, blocks p = some n → wp (libFree src p) s fun _ s' =>
        BlocksKept (update blocks p none) s.mem s'.mem := by
  obtain ⟨spans, area, lists, hinv, hR⟩ :=
    sound_run hsrc ⟨_, _, _, inv_start m w, hnone, hI⟩ hrun
  refine ⟨fun p n q k x hp hq hne => blocks_apart hinv hp hq hne, fun n p s' hn hcall => ?_,
    fun p n hp => ?_⟩
  · obtain ⟨-, -, -, -, hkept, ⟨hp, -⟩ | ⟨-, hfresh, -⟩⟩ :=
      ends_ok (ends_libMalloc hsrc hinv hR hn) hcall
    · refine ⟨?_, hkept⟩
      cases hb : blocks p with
      | none => rfl
      | some k =>
          -- no block is at the null pointer
          obtain ⟨a, hpa, -, ha, -⟩ := hinv.core.live p k hb
          have hpos := toNat_payload hinv.core ha.1
          rw [← hpa, hp] at hpos
          have hz : (0 : Uptr).toNat = 0 := rfl
          omega
    · exact ⟨hfresh, hkept⟩
  · refine wp_mono (wp_libFree hsrc hinv hR hp) fun _ s' hs' => ?_
    obtain ⟨-, -, -, -, -, hkept⟩ := hs'
    exact hkept

/-- **Nothing is lost to fragments**: a span without a block of a caller is one free block, and no
    more than `MAXCOMPLETE` of them are kept for a size. -/
theorem liballoc_coalesces (hsrc : src.Exact given I E) (hnone : given w = fun _ => none)
    (hI : I w) (hrun : ReflTransGen (LibStep src) (fun _ => none, .start m w) (blocks, s)) :
    (∀ q j, given s.pages q = some j → Unused blocks q j → WholeSpan s q j) ∧
      ∀ i (l : List Uptr), l.Nodup →
        (∀ q, q ∈ l → s.bin q = i ∧ ∃ j, given s.pages q = some j ∧ Unused blocks q j) →
        (l.length : Int) ≤ MAXCOMPLETE := by
  obtain ⟨spans, area, lists, hinv, rfl, -⟩ :=
    sound_run hsrc ⟨_, _, _, inv_start m w, hnone, hI⟩ hrun
  exact ⟨fun q j hq hout => (span_whole hinv hq hout).1, fun i l hl hq => spans_few hinv hl hq⟩

end Runs

/-! ## 3. Pages one after another -/

/-- The number of the next page, and the spans that are out. -/
structure BumpPages where
  next : Nat
  given : Uptr → Option Nat

/-- Pages that are never used again. -/
def bumpPages : PageSource BumpPages where
  alloc n := do
    let (m, w) ← get
    if 4096 * (w.next + n.toNat) < 2 ^ 64 then
      let p : Uptr := BitVec.ofNat 64 (4096 * w.next)
      set (m, BumpPages.mk (w.next + n.toNat) (update w.given p (some n.toNat)))
      return p
    else return 0
  free p _ := do
    let (m, w) ← get
    set (m, BumpPages.mk w.next (update w.given p none))
    return 0

/-- The spans are below the next page. -/
structure BumpPages.Below (w : BumpPages) : Prop where
  next : 0 < w.next
  span : ∀ q j, w.given q = some j → 0 < j ∧ q.toNat + 4096 * j ≤ 4096 * w.next

theorem bumpPages_exact : bumpPages.Exact BumpPages.given BumpPages.Below fun _ => False := by
  refine ⟨fun spans m w n hR hn hbytes => ?_, fun spans m w p n hR hp => ?_⟩
  · obtain ⟨rfl, hbelow⟩ := hR
    have hw := hbelow.next
    have hcast : ((n : Nat) : Int).toNat = n := rfl
    unfold bumpPages
    dsimp only
    rw [ends_bind, ends_get]
    dsimp only
    rw [hcast]
    by_cases htop : 4096 * (w.next + n) < 2 ^ 64
    · have hpos : (BitVec.ofNat 64 (4096 * w.next)).toNat = 4096 * w.next := by
        rw [BitVec.toNat_ofNat, Nat.mod_eq_of_lt (by omega)]
      rw [if_pos htop, ends_bind, ends_set, ends_pure]
      refine ⟨fun _ _ _ _ _ _ => rfl, .inr ⟨?_, by omega, by omega, ?_, fun q j hq => ?_, rfl,
        ⟨?_, fun q j hq => ?_⟩⟩⟩
      · intro h0
        rw [h0] at hpos
        have hz : (0 : Uptr).toNat = 0 := rfl
        omega
      · cases hs : w.given (BitVec.ofNat 64 (4096 * w.next)) with
        | none => rfl
        | some j =>
            have hle := hbelow.span _ j hs
            omega
      · have hle := hbelow.span q j hq
        unfold Clear
        omega
      · show 0 < w.next + n
        omega
      · have hq : update w.given (BitVec.ofNat 64 (4096 * w.next)) (some n) q = some j := hq
        show 0 < j ∧ q.toNat + 4096 * j ≤ 4096 * (w.next + n)
        by_cases hqp : q = BitVec.ofNat 64 (4096 * w.next)
        · rw [hqp, update_self] at hq
          cases hq
          rw [hqp, hpos]
          exact ⟨by omega, by omega⟩
        · rw [update_of_ne hqp] at hq
          have hle := hbelow.span q j hq
          exact ⟨hle.1, by omega⟩
    · rw [if_neg htop, ends_pure]
      exact ⟨fun _ _ _ _ _ _ => rfl, .inl ⟨rfl, rfl, hbelow⟩⟩
  · obtain ⟨rfl, hbelow⟩ := hR
    refine ⟨0, (m, BumpPages.mk w.next (update w.given p none)), rfl, fun _ _ _ _ _ _ => rfl, rfl,
      hbelow.next, fun q j hq => ?_⟩
    have hq : update w.given p none q = some j := hq
    by_cases hqp : q = p
    · rw [hqp, update_self] at hq
      cases hq
    · rw [update_of_ne hqp] at hq
      exact hbelow.span q j hq

/-- Zeroed memory, and page 1 is the next. -/
def bumpStart : LibState BumpPages := .start (fun _ => 0) ⟨1, fun _ => none⟩

theorem bumpStart_below : BumpPages.Below ⟨1, fun _ => none⟩ :=
  ⟨Nat.one_pos, fun _ _ hq => by cases hq⟩

/-- The second block is cut from what the first left. -/
theorem liballoc_apart_two : ∃ s s', libMalloc bumpPages 100 bumpStart = .ok (4144, s) ∧
    libMalloc bumpPages 40000 s = .ok (4296, s') ∧
    (∀ x, InBlock 4144 100 x → ¬ InBlock 4296 40000 x) ∧
    wp (libFree bumpPages 4144) s' fun _ t => ∀ x, InBlock 4296 40000 x → t.mem x = s'.mem x := by
  obtain ⟨s, hs⟩ : ∃ s, libMalloc bumpPages 100 bumpStart = .ok (4144, s) := ⟨_, rfl⟩
  obtain ⟨s', hs'⟩ : ∃ s', (libMalloc bumpPages 100 bumpStart >>= fun r =>
    libMalloc bumpPages 40000 r.2) = .ok (4296, s') := ⟨_, rfl⟩
  rw [hs] at hs'
  have hs' : libMalloc bumpPages 40000 s = .ok (4296, s') := hs'
  have hfirst : LibStep bumpPages (fun _ => none, bumpStart)
      (update (fun _ => none) 4144 (some 100), s) := .malloc (by decide) hs
  have hsecond : LibStep bumpPages (update (fun _ => none) 4144 (some 100), s)
      (update (update (fun _ => none) 4144 (some 100)) 4296 (some 40000), s') :=
    .malloc (by decide) hs'
  obtain ⟨hapart, -, hfree⟩ := liballoc_apart bumpPages_exact rfl bumpStart_below
    ((ReflTransGen.single hfirst).tail hsecond)
  refine ⟨s, s', hs, hs', fun x => hapart 4144 100 4296 40000 x rfl rfl (by decide), ?_⟩
  exact wp_mono (hfree 4144 100 rfl) fun _ t hkept => hkept 4296 40000 rfl

set_option maxRecDepth 4000 in
/-- The one block that was cut off is part of its span again. -/
theorem liballoc_coalesces_one : ∃ s s', libMalloc bumpPages 100 bumpStart = .ok (4144, s) ∧
    libFree bumpPages 4144 s = .ok ((), s') ∧ WholeSpan s' 4096 16 := by
  obtain ⟨s, hs⟩ : ∃ s, libMalloc bumpPages 100 bumpStart = .ok (4144, s) := ⟨_, rfl⟩
  obtain ⟨s', hs', hspan⟩ : ∃ s', (libMalloc bumpPages 100 bumpStart >>= fun r =>
    libFree bumpPages 4144 r.2) = .ok ((), s') ∧ s'.pages.given 4096 = some 16 := ⟨_, rfl, rfl⟩
  rw [hs] at hs'
  have hs' : libFree bumpPages 4144 s = .ok ((), s') := hs'
  have hfirst : LibStep bumpPages (fun _ => none, bumpStart)
      (update (fun _ => none) 4144 (some 100), s) := .malloc (by decide) hs
  have hsecond : LibStep bumpPages (update (fun _ => none) 4144 (some 100), s)
      (update (update (fun _ => none) 4144 (some 100)) 4144 none, s') := .free rfl hs'
  obtain ⟨hwhole, -⟩ := liballoc_coalesces bumpPages_exact rfl bumpStart_below
    ((ReflTransGen.single hfirst).tail hsecond)
  refine ⟨s, s', hs, hs', hwhole 4096 16 hspan fun p n hp => ?_⟩
  by_cases hpa : p = 4144
  · rw [hpa, update_self] at hp
    cases hp
  · rw [update_of_ne hpa, update_of_ne hpa] at hp
    cases hp

end Slightx
