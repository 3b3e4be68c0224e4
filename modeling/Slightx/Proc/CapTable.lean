/-
  File:      Slightx/Proc/CapTable.lean
  Subject:   The slots of a capability table and its free list.

  A slot is live, vacated or has never been used. The vacated slots are threaded on the free list
  by their `next_free` fields, those never used are the ones from `next_unused` on:

  * `SlotsInv` -- the invariant, with the slot that a running call has taken and not yet filled;
  * `wp_capTableTake`, `wp_capTableClaim` -- the two ways a slot is taken;
  * `slotsInv_fill`, `slotsInv_vacate` -- a slot filled, a slot vacated;
  * `Keeps` facts (`SlotsKept`) -- what these steps do to the live slots: nothing
-/
import Slightx.Proc.Capabilities

namespace Slightx

open Lib

/-! ## 1. The invariant -/

def CapTable.next (t : CapTable) (i : U16) : U16 := (t.slots i).nextFree

/-- **The table is in order**: `free` is the free list, and it has the empty slots below
    `next_unused` but for `held`, the slot a running call has taken. -/
structure SlotsInv (t : CapTable) (held : Option U16) (free : List U16) : Prop where
  small : t.capacity.toNat ≤ 0xFFFF
  used : t.nextUnused.toNat ≤ t.capacity.toNat
  chain : Chain t.next CAP_INVALID_INDEX t.freeHead free
  mem : ∀ i, i ∈ free ↔
    i.toNat < t.nextUnused.toNat ∧ (t.slots i).obj = 0 ∧ held ≠ some i
  held : ∀ i, held = some i → i.toNat < t.nextUnused.toNat ∧ (t.slots i).obj = 0
  unused : ∀ i, t.nextUnused.toNat ≤ i.toNat → i.toNat < t.capacity.toNat →
    (t.slots i).obj = 0 ∧ (t.slots i).gen = 1
  gen : ∀ i, i.toNat < t.capacity.toNat → (t.slots i).gen ≠ 0

/-- The steps from `t` to `t'` keep what the slots hold, and new slots are empty. -/
structure SlotsKept (t t' : CapTable) : Prop where
  grow : t.capacity.toNat ≤ t'.capacity.toNat
  same : ∀ i, i.toNat < t.capacity.toNat → (t'.slots i).obj = (t.slots i).obj ∧
    (t'.slots i).rights = (t.slots i).rights ∧ (t'.slots i).flags = (t.slots i).flags ∧
    (t'.slots i).gen = (t.slots i).gen
  new : ∀ i, t.capacity.toNat ≤ i.toNat → i.toNat < t'.capacity.toNat →
    (t'.slots i).obj = 0 ∧ (t'.slots i).gen = 1

section Slots

variable {t t' t'' : CapTable} {held : Option U16} {free : List U16} {i idx : U16}

theorem slotsKept_refl : SlotsKept t t :=
  ⟨Nat.le_refl _, fun _ _ => ⟨rfl, rfl, rfl, rfl⟩, fun _ h h' => absurd h' (Nat.not_lt.mpr h)⟩

theorem slotsKept_trans (h : SlotsKept t t') (h' : SlotsKept t' t'') : SlotsKept t t'' := by
  refine ⟨Nat.le_trans h.grow h'.grow, fun i hi => ?_, fun i hi hi' => ?_⟩
  · obtain ⟨ho, hr, hf, hg⟩ := h.same i hi
    obtain ⟨ho', hr', hf', hg'⟩ := h'.same i (Nat.lt_of_lt_of_le hi h.grow)
    exact ⟨ho'.trans ho, hr'.trans hr, hf'.trans hf, hg'.trans hg⟩
  · rcases Nat.lt_or_ge i.toNat t'.capacity.toNat with hlt | hge
    · obtain ⟨ho, hg⟩ := h.new i hi hlt
      obtain ⟨ho', _, _, hg'⟩ := h'.same i hlt
      exact ⟨ho'.trans ho, hg'.trans hg⟩
    · exact h'.new i hge hi'

/-- A table that differs in its links only. -/
theorem slotsKept_links (hc : t'.capacity = t.capacity)
    (hs : ∀ i, (t'.slots i).obj = (t.slots i).obj ∧ (t'.slots i).rights = (t.slots i).rights ∧
      (t'.slots i).flags = (t.slots i).flags ∧ (t'.slots i).gen = (t.slots i).gen) :
    SlotsKept t t' := by
  refine ⟨Nat.le_of_eq (congrArg BitVec.toNat hc.symm), fun i _ => hs i, fun i hi hi' => ?_⟩
  rw [hc] at hi'
  exact absurd hi' (Nat.not_lt.mpr hi)

/-! ## 2. Indices -/

theorem ne_invalid (h : i.toNat < 0xFFFF) : i ≠ CAP_INVALID_INDEX := by
  rintro rfl
  exact absurd h (Nat.lt_irrefl _)

theorem toNat_succ (h : i.toNat < 0xFFFF) : (i + 1).toNat = i.toNat + 1 := by
  rw [BitVec.toNat_add, Nat.mod_eq_of_lt]
  · rfl
  · show i.toNat + 1 < 2 ^ 16
    omega

theorem toNat_ofNat_index {n : Nat} (h : n < 2 ^ 16) : (BitVec.ofNat 16 n).toNat = n := by
  rw [BitVec.toNat_ofNat, Nat.mod_eq_of_lt h]

/-- Different indices below a bound are at most that many. -/
theorem length_le_of_lt {l : List U16} (hl : l.Nodup) {n : Nat} (h : ∀ i ∈ l, i.toNat < n) :
    l.length ≤ n := by
  have hnd : (l.map BitVec.toNat).Nodup := hl.map fun _ _ he => BitVec.eq_of_toNat_eq he
  have hsub : l.map BitVec.toNat ⊆ List.range n := by
    intro m hm
    obtain ⟨i, hi, rfl⟩ := List.mem_map.mp hm
    exact List.mem_range.mpr (h i hi)
  have hle := hnd.length_le_of_subset hsub
  rwa [List.length_map, List.length_range] at hle

/-! ## 3. Running on a part -/

section Parts

variable {ω α : Type} {s : CapState ω} {Q : α → CapState ω → Prop}

@[simp] theorem wp_onTable (x : Prog Fault CapTable α) :
    wp (onTable x) s Q ↔ wp x s.table (fun a t => Q a { s with table := t }) :=
  wp_zoom _ _ x s Q

@[simp] theorem wp_onHeap (x : Prog Fault (CapHeap ω) α) :
    wp (onHeap x) s Q ↔ wp x s.heap (fun a h => Q a { s with heap := h }) :=
  wp_zoom _ _ x s Q

end Parts

/-! ## 4. Growing -/

/-- The table with new slots from `first` on. -/
def CapTable.prepared (t : CapTable) (first n : Nat) : CapTable :=
  { t with slots := fun i => if first ≤ i.toNat ∧ i.toNat < first + n then .unused else t.slots i }

theorem prepared_zero (t : CapTable) (first : Nat) : t.prepared first 0 = t :=
  CapTable.ext (funext fun _ => if_neg (by omega)) rfl rfl rfl

theorem prepared_succ {first n : Nat} (h : first + n < 2 ^ 16) (t : CapTable) :
    (t.prepared first n).setSlot (BitVec.ofNat 16 (first + n)) .unused
      = t.prepared first (n + 1) := by
  refine CapTable.ext (funext fun i => ?_) rfl rfl rfl
  show Function.update (t.prepared first n).slots _ _ i = ite _ _ _
  have hof : (BitVec.ofNat 16 (first + n)).toNat = first + n := toNat_ofNat_index h
  by_cases hi : i = BitVec.ofNat 16 (first + n)
  · rw [hi, Function.update_self, if_pos (by omega)]
  · have hne : i.toNat ≠ first + n := fun he => hi (BitVec.eq_of_toNat_eq (he.trans hof.symm))
    rw [Function.update_of_ne hi]
    refine if_congr ?_ rfl rfl
    omega

theorem wp_prepareSlots {first n : Nat} (h : first + n ≤ 2 ^ 16) (t : CapTable)
    (Q : Unit → CapTable → Prop) :
    wp (prepareSlots first n) t Q ↔ Q () (t.prepared first n) := by
  have hrun : ∀ m, m ≤ n → runUp m (fun k t => t.setSlot (BitVec.ofNat 16 (first + k)) .unused) t
      = t.prepared first m := by
    intro m
    induction m with
    | zero => exact fun _ => (prepared_zero t first).symm
    | succ m ih =>
        intro hm
        rw [runUp, ih (by omega), prepared_succ (by omega)]
  unfold prepareSlots
  rw [wp_forUp_iff (P := fun _ => True)
    (f := fun k t => t.setSlot (BitVec.ofNat 16 (first + k)) .unused), hrun n (Nat.le_refl n)]
  · exact ⟨fun hq => hq.2, fun hq => ⟨fun _ _ => trivial, hq⟩⟩
  · intro i u R _
    rw [wp_modify]
    exact ⟨fun hq => ⟨trivial, hq⟩, fun hq => hq.2⟩

/-- What growing leaves: the old slots, and new ones behind them. The block grows only where
    every slot has been used. -/
structure Grown (t t' : CapTable) : Prop where
  grow : t.capacity.toNat ≤ t'.capacity.toNat
  small : t'.capacity.toNat ≤ 0xFFFF
  nextUnused : t'.nextUnused = t.nextUnused
  freeHead : t'.freeHead = t.freeHead
  slots : ∀ i, i.toNat < t.capacity.toNat → t'.slots i = t.slots i
  new : ∀ i, t.capacity.toNat ≤ i.toNat → i.toNat < t'.capacity.toNat → t'.slots i = .unused
  full : t'.capacity ≠ t.capacity → t.capacity.toNat ≤ t.nextUnused.toNat

theorem grown_refl (h : t.capacity.toNat ≤ 0xFFFF) : Grown t t where
  grow := Nat.le_refl _
  small := h
  nextUnused := rfl
  freeHead := rfl
  slots := fun _ _ => rfl
  new := fun _ h h' => absurd h' (Nat.not_lt.mpr h)
  full := fun h => absurd rfl h

theorem grown_trans (h : Grown t t') (h' : Grown t' t'') : Grown t t'' where
  grow := Nat.le_trans h.grow h'.grow
  small := h'.small
  nextUnused := h'.nextUnused.trans h.nextUnused
  freeHead := h'.freeHead.trans h.freeHead
  slots := fun i hi => (h'.slots i (Nat.lt_of_lt_of_le hi h.grow)).trans (h.slots i hi)
  new := fun i hi hi' => by
    rcases Nat.lt_or_ge i.toNat t'.capacity.toNat with hlt | hge
    · rw [h'.slots i hlt, h.new i hi hlt]
    · exact h'.new i hge hi'
  full := fun hne => by
    by_cases he : t'.capacity = t.capacity
    · rw [← he, ← h.nextUnused]
      exact h'.full fun he' => hne (he'.trans he)
    · exact h.full he

theorem slotsKept_grown (h : Grown t t') : SlotsKept t t' where
  grow := h.grow
  same := fun i hi => by rw [h.slots i hi]; exact ⟨rfl, rfl, rfl, rfl⟩
  new := fun i hi hi' => by rw [h.new i hi hi']; exact ⟨rfl, rfl⟩

theorem slotsInv_grown (hi : SlotsInv t held free) (h : Grown t t') : SlotsInv t' held free := by
  have hlt : ∀ i, i.toNat < t.nextUnused.toNat → t'.slots i = t.slots i :=
    fun i hu => h.slots i (Nat.lt_of_lt_of_le hu hi.used)
  refine ⟨h.small, ?_, ?_, fun i => ?_, fun i hh => ?_, fun i hu hc => ?_, fun i hc => ?_⟩
  · rw [h.nextUnused]
    exact Nat.le_trans hi.used h.grow
  · rw [h.freeHead]
    refine chain_congr hi.chain fun i hm => ?_
    exact congrArg CapSlot.nextFree (hlt i ((hi.mem i).mp hm).1)
  · rw [hi.mem i, h.nextUnused]
    constructor
    · intro hm
      rw [hlt i hm.1]
      exact hm
    · intro hm
      rw [hlt i hm.1] at hm
      exact hm
  · rw [h.nextUnused, hlt i (hi.held i hh).1]
    exact hi.held i hh
  · rw [h.nextUnused] at hu
    rcases Nat.lt_or_ge i.toNat t.capacity.toNat with hlt | hge
    · rw [h.slots i hlt]
      exact hi.unused i hu hlt
    · rw [h.new i hge hc]
      exact ⟨rfl, rfl⟩
  · rcases Nat.lt_or_ge i.toNat t.capacity.toNat with hlt | hge
    · rw [h.slots i hlt]
      exact hi.gen i hlt
    · rw [h.new i hge hc]
      exact (by decide)

theorem newCapacity_lt {c : Usize} (h : c.toNat < 0xFFFF) :
    c.toNat < (capTableNewCapacity c).toNat ∧ (capTableNewCapacity c).toNat ≤ 0xFFFF := by
  have hdbl : (c * 2).toNat = c.toNat * 2 := by
    rw [BitVec.toNat_mul]
    exact Nat.mod_eq_of_lt (show c.toNat * 2 < 2 ^ 64 by omega)
  have hmax : (0xFFFF : Usize).toNat = 0xFFFF := rfl
  unfold capTableNewCapacity
  by_cases h0 : c = 0
  · subst h0
    decide
  · have hpos : c.toNat ≠ 0 := fun h => h0 (BitVec.eq_of_toNat_eq h)
    rw [if_neg h0]
    dsimp only
    split
    · rw [hmax]
      omega
    · rename_i hle
      rw [BitVec.lt_def, hdbl, hmax] at hle
      omega

theorem wp_capTableEnsureCapacity (hi : SlotsInv t held free) :
    wp capTableEnsureCapacity t (fun _ t' => Grown t t' ∧
      (t.capacity.toNat ≤ t.nextUnused.toNat → t.capacity.toNat < 0xFFFF →
        t.capacity.toNat < t'.capacity.toNat)) := by
  unfold capTableEnsureCapacity
  rw [wp_bind, wp_get]
  have hsmall := hi.small
  split
  · rename_i hlt
    rw [wp_pure]
    exact ⟨grown_refl hsmall, fun h => absurd hlt (Nat.not_lt.mpr h)⟩
  · rename_i hfull
    split
    · rename_i hmax
      rw [wp_pure]
      refine ⟨grown_refl hsmall, fun _ h => ?_⟩
      rw [hmax] at h
      exact absurd h (by decide)
    · rename_i hmax
      have hne : t.capacity.toNat ≠ 0xFFFF := fun h => hmax (BitVec.eq_of_toNat_eq h)
      have hgt := newCapacity_lt (c := t.capacity) (by omega)
      rw [wp_bind, wp_set, wp_prepareSlots (by omega)]
      refine ⟨⟨Nat.le_of_lt hgt.1, hgt.2, rfl, rfl, fun i hlt => ?_, fun i hge hlt => ?_,
        fun _ => Nat.not_lt.mp hfull⟩, fun _ _ => hgt.1⟩
      · exact if_neg fun h => absurd hlt (Nat.not_lt.mpr h.1)
      · refine if_pos ⟨hge, ?_⟩
        rw [Nat.add_sub_cancel' (Nat.le_of_lt hgt.1)]
        exact hlt

/-! ## 5. Taking a slot -/

/-- An `add` finds a slot: one on the free list, one never used, or room to grow. -/
def CapTable.Room (t : CapTable) : Prop :=
  t.freeHead ≠ CAP_INVALID_INDEX ∨ t.nextUnused.toNat < 0xFFFF

/-- Every slot of the block is live. -/
def CapTable.Full (t : CapTable) : Prop :=
  ∀ i, i.toNat < t.capacity.toNat → (t.slots i).obj ≠ 0

/-- With an empty free list, all slots below `next_unused` are live. -/
theorem live_of_no_free (hi : SlotsInv t none free) (h : t.freeHead = CAP_INVALID_INDEX)
    (hu : i.toNat < t.nextUnused.toNat) : (t.slots i).obj ≠ 0 := by
  intro h0
  have hc := hi.chain
  rw [h] at hc
  have hm := (hi.mem i).mpr ⟨hu, h0, by simp⟩
  rw [chain_stop hc] at hm
  exact absurd hm List.not_mem_nil

/-- A slot taken off the free list, whose links may change. -/
theorem slotsInv_taken {free' : List U16} (hi : SlotsInv t none free) (hidx : idx ∈ free)
    (hc : t'.capacity = t.capacity) (hn : t'.nextUnused = t.nextUnused)
    (hs : ∀ i, (t'.slots i).obj = (t.slots i).obj ∧ (t'.slots i).gen = (t.slots i).gen)
    (hchain : Chain t'.next CAP_INVALID_INDEX t'.freeHead free')
    (hmem : ∀ i, i ∈ free' ↔ i ∈ free ∧ i ≠ idx) : SlotsInv t' (some idx) free' := by
  have hobj : ∀ i, (t'.slots i).obj = (t.slots i).obj := fun i => (hs i).1
  have hgen : ∀ i, (t'.slots i).gen = (t.slots i).gen := fun i => (hs i).2
  refine ⟨?_, ?_, hchain, fun i => ?_, fun i he => ?_, fun i hu hlt => ?_, fun i hlt => ?_⟩
  · rw [hc]
    exact hi.small
  · rw [hc, hn]
    exact hi.used
  · rw [hmem i, hi.mem i, hn, hobj i]
    constructor
    · intro hm
      refine ⟨hm.1.1, hm.1.2.1, fun he => hm.2 ?_⟩
      injection he with he
      exact he.symm
    · intro hm
      exact ⟨⟨hm.1, hm.2.1, by simp⟩, fun he => hm.2.2 (congrArg some he.symm)⟩
  · injection he with he
    have hm := (hi.mem idx).mp hidx
    rw [hn, hobj i, ← he]
    exact ⟨hm.1, hm.2.1⟩
  · rw [hn] at hu
    rw [hc] at hlt
    rw [hobj i, hgen i]
    exact hi.unused i hu hlt
  · rw [hc] at hlt
    rw [hgen i]
    exact hi.gen i hlt

/-- The head of the free list taken off it. -/
theorem slotsInv_pop (hi : SlotsInv t none (idx :: free)) (hh : t.freeHead = idx) :
    SlotsInv { t with freeHead := t.next idx } (some idx) free := by
  have hnd := List.nodup_cons.mp (chain_nodup hi.chain)
  refine slotsInv_taken hi List.mem_cons_self rfl rfl (fun _ => ⟨rfl, rfl⟩)
    (chain_tail (hh ▸ hi.chain)) fun i => ?_
  rw [List.mem_cons]
  constructor
  · intro hm
    exact ⟨Or.inr hm, fun he => hnd.1 (he ▸ hm)⟩
  · intro hm
    exact hm.1.resolve_left hm.2

/-- The first slot never used. -/
theorem slotsInv_first (hi : SlotsInv t none free) (hc : t.nextUnused.toNat < t.capacity.toNat) :
    SlotsInv { t with nextUnused := t.nextUnused + 1 } (some t.nextUnused) free := by
  have hs : (t.nextUnused + 1).toNat = t.nextUnused.toNat + 1 :=
    toNat_succ (Nat.lt_of_lt_of_le hc hi.small)
  have hfresh := hi.unused t.nextUnused (Nat.le_refl _) hc
  refine ⟨hi.small, ?_, hi.chain, fun i => ?_, fun i he => ?_, fun i hu => ?_, hi.gen⟩
  · show (t.nextUnused + 1).toNat ≤ _
    rw [hs]
    exact hc
  · show i ∈ free ↔ i.toNat < (t.nextUnused + 1).toNat ∧ (t.slots i).obj = 0 ∧ _
    rw [hi.mem i, hs]
    constructor
    · intro hm
      refine ⟨Nat.lt_succ_of_lt hm.1, hm.2.1, fun he => ?_⟩
      injection he with he
      exact absurd hm.1 (he ▸ Nat.lt_irrefl _)
    · intro hm
      refine ⟨?_, hm.2.1, by simp⟩
      rcases Nat.lt_succ_iff_lt_or_eq.mp hm.1 with h | h
      · exact h
      · exact absurd (congrArg some (BitVec.eq_of_toNat_eq h).symm) hm.2.2
  · injection he with he
    show i.toNat < (t.nextUnused + 1).toNat ∧ _
    rw [hs, ← he]
    exact ⟨Nat.lt_succ_self _, hfresh.1⟩
  · have hu : (t.nextUnused + 1).toNat ≤ i.toNat := hu
    rw [hs] at hu
    exact hi.unused i (Nat.le_of_succ_le hu)

/-- **The slot that `cap_table_add` fills.** -/
theorem wp_capTableTake (hi : SlotsInv t none free) (hr : t.Room) :
    wp capTableTake t (fun idx t' => (∃ free', SlotsInv t' (some idx) free') ∧ SlotsKept t t' ∧
      (t'.capacity ≠ t.capacity → t.Full)) := by
  unfold capTableTake
  rw [wp_bind, wp_get]
  split
  · rename_i hh
    obtain ⟨rest, hfree, _⟩ := chain_start hi.chain hh
    rw [wp_bind, wp_set, wp_pure]
    subst hfree
    exact ⟨⟨rest, slotsInv_pop hi rfl⟩, slotsKept_links rfl fun _ => ⟨rfl, rfl, rfl, rfl⟩,
      fun hne => absurd rfl hne⟩
  · rename_i hh
    have hh : t.freeHead = CAP_INVALID_INDEX := Classical.not_not.mp hh
    have hroom : t.nextUnused.toNat < 0xFFFF := hr.resolve_left fun h => h hh
    rw [wp_bind]
    refine wp_mono (wp_capTableEnsureCapacity hi) fun _ u hu => ?_
    obtain ⟨hg, hmore⟩ := hu
    have hiu := slotsInv_grown hi hg
    have hlt : u.nextUnused.toNat < u.capacity.toNat := by
      have hle := hg.grow
      have hused := hi.used
      rw [hg.nextUnused]
      by_cases hf : t.capacity.toNat ≤ t.nextUnused.toNat
      · have := hmore hf (by omega)
        omega
      · omega
    rw [wp_bind, wp_get, wp_bind, wp_assert, wp_bind, wp_set, wp_pure]
    refine ⟨hlt, ⟨free, slotsInv_first hiu hlt⟩, ?_, fun hne i hc => ?_⟩
    · exact slotsKept_trans (slotsKept_grown hg) (slotsKept_links rfl fun _ => ⟨rfl, rfl, rfl, rfl⟩)
    · exact live_of_no_free hi hh (Nat.lt_of_lt_of_le hc (hg.full hne))

/-- Without room the assertion of `cap_table_add` fails. -/
theorem not_wp_capTableTake (hi : SlotsInv t none free) (hr : ¬ t.Room)
    (Q : U16 → CapTable → Prop) : ¬ wp capTableTake t Q := by
  unfold CapTable.Room at hr
  have hh : t.freeHead = CAP_INVALID_INDEX := Classical.not_not.mp fun h => hr (Or.inl h)
  have hn : ¬ t.nextUnused.toNat < 0xFFFF := fun h => hr (Or.inr h)
  unfold capTableTake
  rw [wp_bind, wp_get, if_neg fun h => h hh, wp_bind]
  intro h
  obtain ⟨_, u, _, hu, hg, _⟩ := wp_and h (wp_capTableEnsureCapacity hi)
  rw [wp_bind, wp_get, wp_bind, wp_assert] at hu
  have hlt := hu.1
  have hsmall := hg.small
  rw [hg.nextUnused] at hlt
  omega

/-- The link of slot `p` set to `j`. -/
def CapTable.link (t : CapTable) (p j : U16) : CapTable :=
  t.setSlot p { t.slots p with nextFree := j }

theorem link_next (t : CapTable) (p j : U16) :
    (t.link p j).next = Function.update t.next p j := by
  funext i
  unfold CapTable.next CapTable.link
  by_cases h : i = p
  · rw [h, setSlot_same, Function.update_self]
  · rw [setSlot_ne _ _ h, Function.update_of_ne h]

theorem link_slot (t : CapTable) (p j i : U16) :
    ((t.link p j).slots i).obj = (t.slots i).obj ∧
    ((t.link p j).slots i).rights = (t.slots i).rights ∧
    ((t.link p j).slots i).flags = (t.slots i).flags ∧
    ((t.link p j).slots i).gen = (t.slots i).gen := by
  unfold CapTable.link
  by_cases h : i = p
  · rw [h, setSlot_same]
    exact ⟨rfl, rfl, rfl, rfl⟩
  · rw [setSlot_ne _ _ h]
    exact ⟨rfl, rfl, rfl, rfl⟩

/-- The scan finds an index behind `prev`: each round leaves one node of the list behind. -/
theorem wp_freeListScan {rounds : Nat} {prev : U16} {l : List U16}
    (hc : Chain t.next CAP_INVALID_INDEX prev (prev :: l)) (hm : idx ∈ l)
    (hlen : l.length ≤ rounds) :
    wp (freeListScan idx rounds prev) t (fun ok t' => ok = true ∧ ∃ l₁ p l₂,
      prev :: l = l₁ ++ p :: idx :: l₂ ∧ t' = t.link p (t.next idx)) := by
  induction rounds generalizing prev l with
  | zero =>
      rw [List.length_eq_zero_iff.mp (Nat.le_zero.mp hlen)] at hm
      exact absurd hm List.not_mem_nil
  | succ rounds ih =>
      unfold freeListScan
      rw [if_neg (chain_ne_stop hc List.mem_cons_self), wp_bind, wp_get]
      cases l with
      | nil => exact absurd hm List.not_mem_nil
      | cons cur l =>
          have hcur : (t.slots prev).nextFree = cur := chain_next (l := []) hc
          have hrest : Chain t.next CAP_INVALID_INDEX cur (cur :: l) :=
            chain_suffix (l := [prev]) hc
          dsimp only
          rw [hcur, if_neg (chain_ne_stop hrest List.mem_cons_self)]
          by_cases he : cur = idx
          · rw [if_pos he, wp_bind, wp_set, wp_pure]
            exact ⟨rfl, [], prev, l, by rw [he]; rfl, by rw [he]; rfl⟩
          · rw [if_neg he]
            have hm' : idx ∈ l := (List.mem_cons.mp hm).resolve_left (Ne.symm he)
            refine wp_mono (ih hrest hm' (Nat.le_of_succ_le_succ hlen)) fun ok u hu => ?_
            obtain ⟨hok, l₁, p, l₂, hl, hu⟩ := hu
            exact ⟨hok, prev :: l₁, p, l₂, by rw [hl]; rfl, hu⟩

/-- **The failure branch is never taken**: a vacated slot is found on the free list. -/
theorem wp_capTableFreeListRemove (hi : SlotsInv t none free) (hu : idx.toNat < t.nextUnused.toNat)
    (ho : (t.slots idx).obj = 0) :
    wp (capTableFreeListRemove idx) t (fun ok t' => ok = true ∧
      (∃ free', SlotsInv t' (some idx) free') ∧ SlotsKept t t' ∧
      t'.capacity = t.capacity) := by
  have hmem : idx ∈ free := (hi.mem idx).mpr ⟨hu, ho, by simp⟩
  have hvalid : idx ≠ CAP_INVALID_INDEX := chain_ne_stop hi.chain hmem
  have hhead : t.freeHead ≠ CAP_INVALID_INDEX := by
    intro h
    have hc := hi.chain
    rw [h] at hc
    rw [chain_stop hc] at hmem
    exact absurd hmem List.not_mem_nil
  obtain ⟨rest, hfree, _⟩ := chain_start hi.chain hhead
  unfold capTableFreeListRemove
  rw [wp_bind, wp_assert]
  refine ⟨hvalid, ?_⟩
  rw [wp_bind, wp_get, if_neg hhead]
  by_cases he : t.freeHead = idx
  · rw [if_pos he, wp_bind, wp_set, wp_pure]
    rw [hfree, he] at hi
    exact ⟨rfl, ⟨rest, slotsInv_pop hi he⟩, slotsKept_links rfl fun _ => ⟨rfl, rfl, rfl, rfl⟩, rfl⟩
  · rw [if_neg he]
    have hnd := chain_nodup hi.chain
    have hm' : idx ∈ rest := by
      rw [hfree] at hmem
      exact (List.mem_cons.mp hmem).resolve_left (Ne.symm he)
    have hlen : rest.length ≤ 0x10000 := by
      refine length_le_of_lt (List.nodup_cons.mp (hfree ▸ hnd)).2 fun i _ => i.isLt
    refine wp_mono (wp_freeListScan (hfree ▸ hi.chain) hm' hlen) fun ok u hu => ?_
    obtain ⟨hok, l₁, p, l₂, hl, rfl⟩ := hu
    have hfree : free = l₁ ++ p :: idx :: l₂ := hfree.trans hl
    refine ⟨hok, ⟨l₁ ++ p :: l₂, slotsInv_taken hi hmem rfl rfl
      (fun i => ⟨(link_slot t p _ i).1, (link_slot t p _ i).2.2.2⟩) ?_ fun i => ?_⟩,
      slotsKept_links rfl (link_slot t p _), rfl⟩
    · rw [link_next]
      exact chain_remove (hfree ▸ hi.chain)
    · rw [hfree] at hnd ⊢
      exact mem_removed hnd

/-- The skipped slots on the free list: those from `i` up to `idx` are there after the rounds
    for them, and nothing but links has changed. -/
structure Skipped (t u : CapTable) (free l : List U16) (idx : U16) (k : Nat) : Prop where
  chain : Chain u.next CAP_INVALID_INDEX u.freeHead l
  mem : ∀ i, i ∈ l ↔ i ∈ free ∨ idx.toNat - k ≤ i.toNat ∧ i.toNat < idx.toNat
  capacity : u.capacity = t.capacity
  nextUnused : u.nextUnused = t.nextUnused
  slots : ∀ i, (u.slots i).obj = (t.slots i).obj ∧ (u.slots i).rights = (t.slots i).rights ∧
    (u.slots i).flags = (t.slots i).flags ∧ (u.slots i).gen = (t.slots i).gen

theorem wp_freeSkipped (hi : SlotsInv t none free) (hidx : t.nextUnused.toNat ≤ idx.toNat) :
    wp (freeSkipped idx (idx.toNat - t.nextUnused.toNat)) t (fun _ u =>
      ∃ l, Skipped t u free l idx (idx.toNat - t.nextUnused.toNat)) := by
  refine wp_forUp (fun k u => ∃ l, Skipped t u free l idx k) ⟨free, hi.chain, fun i => ?_, rfl, rfl,
    fun _ => ⟨rfl, rfl, rfl, rfl⟩⟩ fun k u hk hu => ?_
  · constructor
    · exact Or.inl
    · intro h
      exact h.resolve_right fun hr => absurd hr.2 (Nat.not_lt.mpr hr.1)
  · obtain ⟨l, hu⟩ := hu
    have hlt := idx.isLt
    generalize hf : idx - BitVec.ofNat 16 k - 1 = f
    have hfn : f.toNat = idx.toNat - (k + 1) := by
      have hkn : (BitVec.ofNat 16 k).toNat = k := toNat_ofNat_index (by omega)
      have hsub : (idx - BitVec.ofNat 16 k).toNat = idx.toNat - k := by
        rw [BitVec.toNat_sub_of_le (by rw [BitVec.le_def, hkn]; omega), hkn]
      have hone : (1 : U16).toNat = 1 := rfl
      rw [← hf, BitVec.toNat_sub_of_le (by rw [BitVec.le_def, hsub, hone]; omega), hsub, hone]
      omega
    have hnot : f ∉ l := by
      intro hm
      rcases (hu.mem f).mp hm with hm | hm
      · have := ((hi.mem f).mp hm).1
        omega
      · omega
    have hvalid : f ≠ CAP_INVALID_INDEX := ne_invalid (by omega)
    rw [wp_modify]
    dsimp only
    refine ⟨f :: l, ?_, fun i => ?_, hu.capacity, hu.nextUnused, fun i => ?_⟩
    · show Chain (u.link f u.freeHead).next _ _ _
      rw [link_next]
      exact chain_push hu.chain hnot hvalid
    · rw [List.mem_cons, hu.mem i]
      have hif : i = f ↔ i.toNat = f.toNat :=
        ⟨congrArg BitVec.toNat, BitVec.eq_of_toNat_eq⟩
      rw [hif, hfn]
      constructor
      · rintro (h | h | h)
        · exact Or.inr (by omega)
        · exact Or.inl h
        · exact Or.inr (by omega)
      · rintro (h | h)
        · exact Or.inr (Or.inl h)
        · by_cases he : i.toNat = idx.toNat - (k + 1)
          · exact Or.inl he
          · exact Or.inr (Or.inr (by omega))
    · obtain ⟨ho, hr, hfl, hg⟩ := hu.slots i
      obtain ⟨ho', hr', hfl', hg'⟩ := link_slot u f u.freeHead i
      exact ⟨ho'.trans ho, hr'.trans hr, hfl'.trans hfl, hg'.trans hg⟩

/-- **The slot that `cap_table_set` fills.** -/
theorem wp_capTableClaim (hi : SlotsInv t none free) (hc : idx.toNat < t.capacity.toNat)
    (ho : (t.slots idx).obj = 0) :
    wp (capTableClaim idx) t (fun ok t' => ok = true ∧ (∃ free', SlotsInv t' (some idx) free') ∧
      SlotsKept t t' ∧ t'.capacity = t.capacity) := by
  unfold capTableClaim
  rw [wp_bind, wp_get]
  split
  · rename_i hu
    exact wp_capTableFreeListRemove hi hu ho
  · rename_i hu
    rw [wp_bind]
    refine wp_mono (wp_freeSkipped hi (Nat.not_lt.mp hu)) fun _ u hs => ?_
    obtain ⟨l, hs⟩ := hs
    have hsucc : (idx + 1).toNat = idx.toNat + 1 := toNat_succ (Nat.lt_of_lt_of_le hc hi.small)
    have hobj : ∀ i, (u.slots i).obj = (t.slots i).obj := fun i => (hs.slots i).1
    have hgen : ∀ i, (u.slots i).gen = (t.slots i).gen := fun i => (hs.slots i).2.2.2
    rw [wp_bind, wp_modify, wp_pure]
    refine ⟨rfl, ⟨l, ?_⟩, slotsKept_links hs.capacity hs.slots, hs.capacity⟩
    refine ⟨?_, ?_, hs.chain, fun i => ?_, fun i he => ?_, fun i hge hlt => ?_, fun i hlt => ?_⟩
    · show u.capacity.toNat ≤ _
      rw [hs.capacity]
      exact hi.small
    · show (idx + 1).toNat ≤ u.capacity.toNat
      rw [hs.capacity, hsucc]
      exact hc
    · show i ∈ l ↔ i.toNat < (idx + 1).toNat ∧ (u.slots i).obj = 0 ∧ some idx ≠ some i
      have hne : some idx ≠ some i ↔ i.toNat ≠ idx.toNat := by
        constructor
        · exact fun h he => h (congrArg some (BitVec.eq_of_toNat_eq he.symm))
        · rintro h he
          injection he with he
          exact h (congrArg BitVec.toNat he.symm)
      rw [hs.mem i, hi.mem i, hobj i, hsucc, hne]
      constructor
      · rintro (h | h)
        · exact ⟨by omega, h.2.1, by omega⟩
        · exact ⟨by omega, (hi.unused i (by omega) (by omega)).1, by omega⟩
      · intro h
        by_cases hlt : i.toNat < t.nextUnused.toNat
        · exact Or.inl ⟨hlt, h.2.1, by simp⟩
        · exact Or.inr (by omega)
    · injection he with he
      show i.toNat < (idx + 1).toNat ∧ (u.slots i).obj = 0
      rw [hsucc, hobj i, ← he]
      exact ⟨Nat.lt_succ_self _, ho⟩
    · have hge : (idx + 1).toNat ≤ i.toNat := hge
      have hlt : i.toNat < u.capacity.toNat := hlt
      rw [hsucc] at hge
      rw [hs.capacity] at hlt
      show (u.slots i).obj = 0 ∧ (u.slots i).gen = 1
      rw [hobj i, hgen i]
      exact hi.unused i (by omega) hlt
    · have hlt : i.toNat < u.capacity.toNat := hlt
      rw [hs.capacity] at hlt
      show (u.slots i).gen ≠ 0
      rw [hgen i]
      exact hi.gen i hlt

/-- The first loop of `cap_table_set`: it ends with a slot for `idx`, or with a block that does
    not grow any more. -/
theorem wp_growTo {rounds : Nat} (idx : U16) (hi : SlotsInv t held free)
    (hr : 0xFFFF < t.capacity.toNat + rounds) :
    wp (growTo idx rounds) t (fun ok t' => Grown t t' ∧
      (ok = true ↔ idx.toNat < t'.capacity.toNat)) := by
  induction rounds generalizing t with
  | zero => exact absurd hr (Nat.not_lt.mpr hi.small)
  | succ rounds ih =>
      unfold growTo
      rw [wp_bind, wp_get]
      split
      · rename_i hle
        dsimp only
        rw [wp_bind]
        refine wp_mono (wp_capTableEnsureCapacity hi) fun _ u hu => ?_
        obtain ⟨hg, _⟩ := hu
        rw [wp_bind, wp_get]
        split
        · rename_i he
          rw [wp_pure, he]
          exact ⟨hg, fun h => absurd h (by decide), fun h => absurd h (Nat.not_lt.mpr hle)⟩
        · rename_i hne
          have hlt : t.capacity.toNat < u.capacity.toNat := by
            refine Nat.lt_of_le_of_ne hg.grow fun he => hne ?_
            exact (BitVec.eq_of_toNat_eq he).symm
          refine wp_mono (ih (slotsInv_grown hi hg) (by omega)) fun ok v hv => ?_
          exact ⟨grown_trans hg hv.1, hv.2⟩
      · rename_i hlt
        rw [wp_pure]
        exact ⟨grown_refl hi.small, fun _ => Nat.not_le.mp hlt, fun _ => rfl⟩

/-! ## 6. Filling and vacating a slot -/

theorem fill_next (t : CapTable) (obj : Uptr) (rights : CapRights) (flags : U32) :
    (t.fill idx obj rights flags).next = Function.update t.next idx CAP_INVALID_INDEX := by
  funext i
  unfold CapTable.next CapTable.fill
  by_cases h : i = idx
  · rw [h, setSlot_same, Function.update_self]
  · rw [setSlot_ne _ _ h, Function.update_of_ne h]

theorem slotsInv_fill {obj : Uptr} (hi : SlotsInv t (some idx) free) (ho : obj ≠ 0)
    (rights : CapRights) (flags : U32) : SlotsInv (t.fill idx obj rights flags) none free := by
  have hheld := hi.held idx rfl
  have hnot : idx ∉ free := fun h => ((hi.mem idx).mp h).2.2 rfl
  refine ⟨hi.small, hi.used, ?_, fun i => ?_, fun i he => (by cases he), fun i hge hlt => ?_,
    fun i hlt => ?_⟩
  · rw [fill_next]
    exact chain_update hi.chain hnot _
  · rw [hi.mem i]
    unfold CapTable.fill
    by_cases h : i = idx
    · rw [h, setSlot_same]
      constructor
      · exact fun hm => absurd rfl hm.2.2
      · exact fun hm => absurd hm.2.1 ho
    · rw [setSlot_ne _ _ h]
      constructor
      · exact fun hm => ⟨hm.1, hm.2.1, by simp⟩
      · refine fun hm => ⟨hm.1, hm.2.1, fun he => h ?_⟩
        injection he with he
        exact he.symm
  · have hne : i ≠ idx := by
      rintro rfl
      exact absurd hheld.1 (Nat.not_lt.mpr hge)
    unfold CapTable.fill
    rw [setSlot_ne _ _ hne]
    exact hi.unused i hge hlt
  · unfold CapTable.fill
    by_cases h : i = idx
    · rw [h, setSlot_same]
      exact hi.gen idx (Nat.lt_of_lt_of_le hheld.1 hi.used)
    · rw [setSlot_ne _ _ h]
      exact hi.gen i hlt

/-- The generation after `gen`: 0 is left out. -/
def nextGen (gen : U16) : U16 := if gen + 1 = 0 then 1 else gen + 1

theorem nextGen_ne_zero (gen : U16) : nextGen gen ≠ 0 := by
  unfold nextGen
  split
  · decide
  · assumption

theorem vacate_same (t : CapTable) (idx : U16) :
    (t.vacate idx).slots idx =
      { obj := 0, rights := 0, flags := 0, gen := nextGen (t.slots idx).gen,
        nextFree := t.freeHead } :=
  setSlot_same t idx _

theorem vacate_ne (t : CapTable) (h : i ≠ idx) : (t.vacate idx).slots i = t.slots i :=
  setSlot_ne t _ h

theorem vacate_next (t : CapTable) (idx : U16) :
    (t.vacate idx).next = Function.update t.next idx t.freeHead := by
  funext i
  unfold CapTable.next
  by_cases h : i = idx
  · rw [h, vacate_same, Function.update_self]
  · rw [vacate_ne _ h, Function.update_of_ne h]

/-- A live slot is below `next_unused`. -/
theorem used_of_live (hi : SlotsInv t held free) (hc : i.toNat < t.capacity.toNat)
    (ho : (t.slots i).obj ≠ 0) : i.toNat < t.nextUnused.toNat := by
  rcases Nat.lt_or_ge i.toNat t.nextUnused.toNat with h | h
  · exact h
  · exact absurd (hi.unused i h hc).1 ho

theorem slotsInv_vacate (hi : SlotsInv t none free) (hc : idx.toNat < t.capacity.toNat)
    (ho : (t.slots idx).obj ≠ 0) : SlotsInv (t.vacate idx) none (idx :: free) := by
  have hu := used_of_live hi hc ho
  have hnot : idx ∉ free := fun h => ho ((hi.mem idx).mp h).2.1
  have hvalid : idx ≠ CAP_INVALID_INDEX := ne_invalid (Nat.lt_of_lt_of_le hc hi.small)
  refine ⟨hi.small, hi.used, ?_, fun i => ?_, fun i he => (by cases he), fun i hge hlt => ?_,
    fun i hlt => ?_⟩
  · rw [vacate_next]
    exact chain_push hi.chain hnot hvalid
  · rw [List.mem_cons, hi.mem i]
    by_cases h : i = idx
    · rw [h, vacate_same]
      constructor
      · exact fun _ => ⟨hu, rfl, by simp⟩
      · exact fun _ => Or.inl rfl
    · rw [vacate_ne _ h]
      exact ⟨fun hm => hm.resolve_left h, Or.inr⟩
  · have hne : i ≠ idx := by
      rintro rfl
      exact absurd hu (Nat.not_lt.mpr hge)
    rw [vacate_ne _ hne]
    exact hi.unused i hge hlt
  · by_cases h : i = idx
    · rw [h, vacate_same]
      exact nextGen_ne_zero _
    · rw [vacate_ne _ h]
      exact hi.gen i hlt

/-! ## 7. The beginning -/

/-- A fresh table is in order, whatever the memory held before. -/
theorem wp_capTableInit {initialCapacity : Usize} (h : initialCapacity.toNat ≤ 0xFFFF)
    (t : CapTable) :
    wp (capTableInit initialCapacity) t (fun _ t' => SlotsInv t' none [] ∧
      t'.capacity = initialCapacity ∧ t'.nextUnused = 0 ∧
      ∀ i, i.toNat < initialCapacity.toNat → (t'.slots i).obj = 0) := by
  have hslot : ∀ i : U16, i.toNat < initialCapacity.toNat →
      0 ≤ i.toNat ∧ i.toNat < 0 + initialCapacity.toNat := fun i hi => by omega
  unfold capTableInit
  rw [wp_bind, wp_assert]
  refine ⟨h, ?_⟩
  rw [wp_bind, wp_modify, wp_prepareSlots (by omega)]
  refine ⟨⟨h, Nat.zero_le _, .nil, fun i => ?_, fun i he => (by cases he), fun i _ hlt => ?_,
    fun i hlt => ?_⟩, rfl, rfl, fun i hlt => ?_⟩
  · exact ⟨fun hm => absurd hm List.not_mem_nil, fun hm => absurd hm.1 (Nat.not_lt_zero _)⟩
  · show (ite _ _ _ : CapSlot).obj = 0 ∧ (ite _ _ _ : CapSlot).gen = 1
    rw [if_pos (hslot i hlt)]
    exact ⟨rfl, rfl⟩
  · show (ite _ _ _ : CapSlot).gen ≠ 0
    rw [if_pos (hslot i hlt)]
    decide
  · show (ite _ _ _ : CapSlot).obj = 0
    rw [if_pos (hslot i hlt)]
    rfl

end Slots

end Slightx
