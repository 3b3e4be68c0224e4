/-
  File:      Slightx/Proc/TaskPages.lean
  Subject:   The pages that mappings hold, with the frames behind them.

  A page that `task_mmap` maps is held: the page map of its task leads to a frame that is not free,
  is no table, and is held once. `HeldPages` keeps this for all pages of all tasks, beside frames
  that others have (`off`).

  * `heldPages_take`, `heldPages_put` -- a free frame is taken, and held by a page;
  * `wp_releasePage`, `wp_releaseLoop` -- pages are given up with their frames;
  * `ends_mmapPages` -- the loop of `task_mmap`: it fills the range, or runs out of frames and
    gives up all it took, or `pmm_alloc` panics; and for which number of free frames it does which
-/
import Slightx.Mem.UserHalf
import Slightx.Proc.TaskMmap
import Mathlib.Data.List.Perm.Basic

namespace Slightx

open Lib

variable {ι : Type} [DecidableEq ι]

/-! ## 1. Held pages -/

/-- The frame a mapping of task `k` holds for page `key`. -/
abbrev Holding (ι : Type) := ι → Nat → Option Uptr

/-- **The pages of mappings**, and the frames behind them; frames that are `off` are others'. -/
structure HeldPages (own : ι → Uptr → Option (Nat × Nat)) (pmap : ι → PageMap) (held : Holding ι)
    (off : Uptr → Prop) (s : VmmState) : Prop where
  maps : UserMaps own pmap s
  nonzero : ∀ f ∈ s.free, f ≠ 0
  page : ∀ k key f, held k key = some f →
    key < userPages ∧ userPage s.mem (pmap k) key = some (f.toNat / 4096)
  frame : ∀ k key f, held k key = some f →
    FrameOk f ∧ f ≠ 0 ∧ f ∉ s.free ∧ ∀ k', own k' f = none
  once : ∀ k key k' key' f, held k key = some f → held k' key' = some f → k = k' ∧ key = key'
  off : ∀ f, off f → f ∉ s.free ∧ (∀ k, own k f = none) ∧ ∀ k key, held k key ≠ some f

/-- A frame that was taken and is not used yet. -/
structure Loose (own : ι → Uptr → Option (Nat × Nat)) (held : Holding ι) (off : Uptr → Prop)
    (s : VmmState) (f : Uptr) : Prop where
  frame : FrameOk f
  nonzero : f ≠ 0
  free : f ∉ s.free
  table : ∀ k, own k f = none
  held : ∀ k key, held k key ≠ some f
  off : ¬ off f

/-- `held`, but for one page. -/
def setHeld (held : Holding ι) (k : ι) (key : Nat) (f : Option Uptr) : Holding ι :=
  fun k' key' => if k' = k ∧ key' = key then f else held k' key'

/-- `held`, and the frames of `fr` for the pages from `key` on. -/
def holdRange (held : Holding ι) (k : ι) (key : Nat) (fr : List Uptr) : Holding ι :=
  fun k' key' => if k' = k ∧ key ≤ key' ∧ key' < key + fr.length then fr[key' - key]?
    else held k' key'

/-- `held`, without the `n` pages from `key` on. -/
def unhold (held : Holding ι) (k : ι) (key n : Nat) : Holding ι :=
  fun k' key' => if k' = k ∧ key ≤ key' ∧ key' < key + n then none else held k' key'

section Holdings

variable {held : Holding ι} {k : ι} {key n : Nat} {f : Uptr} {fr : List Uptr}

theorem holdRange_nil : holdRange held k key [] = held := by
  funext k' key'
  unfold holdRange
  rw [List.length_nil, if_neg fun h => by omega]

theorem holdRange_snoc :
    setHeld (holdRange held k key fr) k (key + fr.length) (some f) =
      holdRange held k key (fr ++ [f]) := by
  funext k' key'
  unfold setHeld holdRange
  rw [List.length_append, List.length_singleton]
  by_cases hk : k' = k
  · by_cases hlast : key' = key + fr.length
    · rw [if_pos ⟨hk, hlast⟩, if_pos ⟨hk, by omega, by omega⟩, hlast, Nat.add_sub_cancel_left,
        List.getElem?_append_right (Nat.le_refl _), Nat.sub_self]
      rfl
    · rw [if_neg fun h => hlast h.2]
      by_cases hin : key ≤ key' ∧ key' < key + fr.length
      · rw [if_pos ⟨hk, hin⟩, if_pos ⟨hk, hin.1, by omega⟩,
          List.getElem?_append_left (by omega)]
      · rw [if_neg fun h => hin h.2, if_neg fun h => hin ⟨h.2.1, by omega⟩]
  · rw [if_neg fun h => hk h.1, if_neg fun h => hk h.1, if_neg fun h => hk h.1]

theorem unhold_zero : unhold held k key 0 = held := by
  funext k' key'
  unfold unhold
  rw [if_neg fun h => by omega]

theorem unhold_succ :
    setHeld (unhold held k key n) k (key + n) none = unhold held k key (n + 1) := by
  funext k' key'
  unfold setHeld unhold
  by_cases hk : k' = k
  · by_cases hlast : key' = key + n
    · rw [if_pos ⟨hk, hlast⟩, if_pos ⟨hk, by omega, by omega⟩]
    · rw [if_neg fun h => hlast h.2]
      by_cases hin : key ≤ key' ∧ key' < key + n
      · rw [if_pos ⟨hk, hin⟩, if_pos ⟨hk, hin.1, by omega⟩]
      · rw [if_neg fun h => hin h.2, if_neg fun h => hin ⟨h.2.1, by omega⟩]
  · rw [if_neg fun h => hk h.1, if_neg fun h => hk h.1, if_neg fun h => hk h.1]

/-- Giving up what was filled leaves what was there. -/
theorem unhold_holdRange (hnone : ∀ key', key ≤ key' → key' < key + fr.length → held k key' = none) :
    unhold (holdRange held k key fr) k key fr.length = held := by
  funext k' key'
  unfold unhold holdRange
  by_cases hin : k' = k ∧ key ≤ key' ∧ key' < key + fr.length
  · rw [if_pos hin, hin.1, hnone key' hin.2.1 hin.2.2]
  · rw [if_neg hin, if_neg hin]

theorem holdRange_get {j : Nat} (hj : j < fr.length) :
    holdRange held k key fr k (key + j) = some fr[j] := by
  unfold holdRange
  rw [if_pos ⟨rfl, by omega, by omega⟩, Nat.add_sub_cancel_left, List.getElem?_eq_getElem hj]

end Holdings

/-! ## 2. One page -/

section Page

variable {own : ι → Uptr → Option (Nat × Nat)} {pmap : ι → PageMap} {held : Holding ι}
  {off : Uptr → Prop} {s s' : VmmState} {own' : Uptr → Option (Nat × Nat)} {va flags : U64} {k : ι}
  {f : Uptr} {rest : List Uptr}

theorem pmmTryAllocFrame_cons (h : s.free = f :: rest) :
    pmmTryAllocFrame s = .ok (f, s.taken f rest) := by
  obtain ⟨m, free⟩ := s
  obtain rfl : free = f :: rest := h
  rfl

theorem pmmTryAllocFrame_nil (h : s.free = []) : pmmTryAllocFrame s = .ok (0, s) := by
  obtain ⟨m, free⟩ := s
  obtain rfl : free = [] := h
  rfl

omit [DecidableEq ι] in
/-- No table changes when a free frame is zeroed. -/
theorem taken_same (h : UserMaps own pmap s) (hfree : s.free = f :: rest) (k : ι) (u : Uptr)
    (hu : own k u ≠ none) (j : Nat) (hj : j < 512) :
    pteAt (s.taken f rest).mem u j = pteAt s.mem u j :=
  taken_pte (h.page k).inv hfree hu hj

omit [DecidableEq ι] in
/-- **A free frame is taken.** -/
theorem heldPages_take (h : HeldPages own pmap held off s) (hfree : s.free = f :: rest) [Nonempty ι] :
    HeldPages own pmap held off (s.taken f rest) ∧ Loose own held off (s.taken f rest) f ∧
      ∀ k key, key < userPages →
        userPage (s.taken f rest).mem (pmap k) key = userPage s.mem (pmap k) key := by
  have hmem : f ∈ s.free := by rw [hfree]; exact List.mem_cons_self
  have hrest : ∀ g ∈ rest, g ∈ s.free := fun g hg => by rw [hfree]; exact List.mem_cons_of_mem _ hg
  obtain ⟨k₀⟩ := ‹Nonempty ι›
  have hnd := (h.maps.page k₀).inv.nodup
  rw [hfree, List.nodup_cons] at hnd
  have htable : ∀ g ∈ s.free, ∀ k, own k g = none := fun g hg k => ((h.maps.page k).inv.free g hg).2
  obtain ⟨hmaps, hpages⟩ := userMaps_same h.maps (taken_same h.maps hfree)
    (fun g hg => ⟨((h.maps.page k₀).inv.free g (hrest g hg)).1, htable g (hrest g hg)⟩) hnd.2
  refine ⟨⟨hmaps, fun g hg => h.nonzero g (hrest g hg), fun k key g hg => ?_, fun k key g hg => ?_,
    h.once, fun g hg => ?_⟩, ⟨((h.maps.page k₀).inv.free f hmem).1, h.nonzero f hmem, hnd.1,
    htable f hmem, fun k key hk => (h.frame k key f hk).2.2.1 hmem, fun ho => (h.off f ho).1 hmem⟩,
    hpages⟩
  · obtain ⟨hkey, hpage⟩ := h.page k key g hg
    exact ⟨hkey, (hpages k key hkey).trans hpage⟩
  · obtain ⟨hf, h0, hn, ht⟩ := h.frame k key g hg
    exact ⟨hf, h0, fun hin => hn (hrest g hin), ht⟩
  · obtain ⟨hn, ht, hh⟩ := h.off g hg
    exact ⟨fun hin => hn (hrest g hin), ht, hh⟩

/-- **A page is held by a frame that was taken.** -/
theorem heldPages_put (h : HeldPages own pmap held off s) (hf : Loose own held off s f)
    (ha : MapArgs va f flags MM_PAGE_4KB) (hva : va.toNat < 2 ^ 47)
    (hnone : held k (va.toNat / 4096) = none)
    (hp : Put (pmap k) va f flags (own k) s own' s' 1) :
    HeldPages (Function.update own k own') pmap (setHeld held k (va.toNat / 4096) (some f)) off s' := by
  obtain ⟨hmaps, hset⟩ := userMaps_put h.maps k ha hva hp
  have hleaf := leafArgs_of_mapArgs (L := 1) ha (by omega) rfl
  have hgrow := leads_put (h.maps.page k).inv (h.maps.page k).root hleaf hp
  have hlow : va.toNat / 4096 < userPages := by unfold userPages; omega
  -- what was no table and is not free is no table now
  have htable : ∀ g, g ∉ s.free → (∀ k', own k' g = none) →
      ∀ k', Function.update own k own' k' g = none := by
    intro g hg hold k'
    by_cases hk : k' = k
    · subst hk
      rw [Function.update_self]
      by_contra hnew
      rcases hgrow.fresh g hnew with ht | ht
      · exact ht (hold k')
      · exact hg ht
    · rw [Function.update_of_ne hk]
      exact hold k'
  have hsub : ∀ g, g ∉ s.free → g ∉ s'.free := fun g hg hin => hg (hgrow.suffix.subset hin)
  have hcases : ∀ k' key g, setHeld held k (va.toNat / 4096) (some f) k' key = some g →
      (k' = k ∧ key = va.toNat / 4096 ∧ g = f) ∨
        (¬ (k' = k ∧ key = va.toNat / 4096) ∧ held k' key = some g) := by
    intro k' key g hg
    unfold setHeld at hg
    by_cases hsame : k' = k ∧ key = va.toNat / 4096
    · rw [if_pos hsame] at hg
      exact Or.inl ⟨hsame.1, hsame.2, (Option.some.inj hg).symm⟩
    · rw [if_neg hsame] at hg
      exact Or.inr ⟨hsame, hg⟩
  refine ⟨hmaps, fun g hg => h.nonzero g (hgrow.suffix.subset hg), fun k' key g hg => ?_,
    fun k' key g hg => ?_, fun k₁ key₁ k₂ key₂ g h₁ h₂ => ?_, fun g hg => ?_⟩
  · rcases hcases k' key g hg with ⟨rfl, rfl, rfl⟩ | ⟨hne, hold⟩
    · exact ⟨hlow, (hset k' _ hlow).1 ⟨rfl, rfl⟩⟩
    · obtain ⟨hkey, hpage⟩ := h.page k' key g hold
      exact ⟨hkey, ((hset k' key hkey).2 hne).trans hpage⟩
  · rcases hcases k' key g hg with ⟨rfl, rfl, rfl⟩ | ⟨hne, hold⟩
    · exact ⟨hf.frame, hf.nonzero, hsub g hf.free, htable g hf.free hf.table⟩
    · obtain ⟨hfr, h0, hn, ht⟩ := h.frame k' key g hold
      exact ⟨hfr, h0, hsub g hn, htable g hn ht⟩
  · rcases hcases k₁ key₁ g h₁ with ⟨rfl, rfl, rfl⟩ | ⟨hne₁, hold₁⟩
    · rcases hcases k₂ key₂ g h₂ with ⟨rfl, rfl, -⟩ | ⟨-, hold₂⟩
      · exact ⟨rfl, rfl⟩
      · exact absurd hold₂ (hf.held k₂ key₂)
    · rcases hcases k₂ key₂ g h₂ with ⟨rfl, rfl, rfl⟩ | ⟨-, hold₂⟩
      · exact absurd hold₁ (hf.held k₁ key₁)
      · exact h.once k₁ key₁ k₂ key₂ g hold₁ hold₂
  · obtain ⟨hn, ht, hh⟩ := h.off g hg
    refine ⟨hsub g hn, htable g hn ht, fun k' key hk' => ?_⟩
    rcases hcases k' key g hk' with ⟨rfl, rfl, rfl⟩ | ⟨-, hold⟩
    · exact hf.off hg
    · exact hh k' key hold

/-- **A page is given up, and its frame is free again.** -/
theorem wp_releasePage (h : HeldPages own pmap held off s) (hva : va.toNat < 2 ^ 47)
    (haligned : va.toNat % 4096 = 0) (hheld : held k (va.toNat / 4096) = some f) :
    wp (releasePage (pmap k) va) s fun _ s' =>
      HeldPages own pmap (setHeld held k (va.toNat / 4096) none) off s' ∧ s'.free = f :: s.free ∧
        PageSet pmap s s' k (va.toNat / 4096) none ∧ ∀ top root key M u, M ≠ 0 →
          Stage (own k) s top root key M u → Stage (own k) s' top root key M u := by
  obtain ⟨-, hpage⟩ := h.page k _ f hheld
  obtain ⟨hframe, hf0, hffree, hftable⟩ := h.frame k _ f hheld
  have hfa := hframe.aligned
  unfold releasePage
  rw [wp_bind]
  refine wp_mono (wp_vmmTranslate_user (h.maps.page k) (h.maps.small k) hva haligned hpage)
    fun a s₁ ha => ?_
  obtain ⟨ha, rfl⟩ := ha
  obtain rfl : a = f := by
    apply BitVec.eq_of_toNat_eq
    omega
  rw [wp_bind]
  refine wp_mono (wp_vmmUnmap_user h.maps k hva) fun _ s₂ hu => ?_
  obtain ⟨hmaps, hfree, hset, hstage⟩ := hu
  unfold pmmFreeFrame
  rw [wp_modify, frame_round hframe, hfree]
  have hfrees : ∀ g ∈ a :: s₁.free, FrameOk g ∧ ∀ k', own k' g = none := by
    intro g hg
    rcases List.mem_cons.mp hg with rfl | hg
    · exact ⟨hframe, hftable⟩
    · exact ⟨((h.maps.page k).inv.free g hg).1, fun k' => ((h.maps.page k').inv.free g hg).2⟩
  have hmaps' : UserMaps own pmap { s₂ with free := a :: s₁.free } :=
    userMaps_free hmaps hfrees (List.nodup_cons.mpr ⟨hffree, (h.maps.page k).inv.nodup⟩)
  have hcases : ∀ k' key g, setHeld held k (va.toNat / 4096) none k' key = some g →
      ¬ (k' = k ∧ key = va.toNat / 4096) ∧ held k' key = some g := by
    intro k' key g hg
    unfold setHeld at hg
    by_cases hsame : k' = k ∧ key = va.toNat / 4096
    · rw [if_pos hsame] at hg
      cases hg
    · rw [if_neg hsame] at hg
      exact ⟨hsame, hg⟩
  refine ⟨⟨hmaps', fun g hg => ?_, fun k' key g hg => ?_, fun k' key g hg => ?_,
    fun k₁ key₁ k₂ key₂ g h₁ h₂ => ?_, fun g hg => ?_⟩, rfl, hset, hstage⟩
  · rcases List.mem_cons.mp hg with rfl | hg
    · exact hf0
    · exact h.nonzero g hg
  · obtain ⟨hne, hold⟩ := hcases k' key g hg
    obtain ⟨hkey, hpage'⟩ := h.page k' key g hold
    exact ⟨hkey, ((hset k' key hkey).2 hne).trans hpage'⟩
  · obtain ⟨hne, hold⟩ := hcases k' key g hg
    obtain ⟨hfr, h0, hn, ht⟩ := h.frame k' key g hold
    refine ⟨hfr, h0, fun hin => ?_, ht⟩
    rcases List.mem_cons.mp hin with rfl | hin
    · exact hne ⟨(h.once k' key k _ g hold hheld).1, (h.once k' key k _ g hold hheld).2⟩
    · exact hn hin
  · exact h.once k₁ key₁ k₂ key₂ g (hcases k₁ key₁ g h₁).2 (hcases k₂ key₂ g h₂).2
  · obtain ⟨hn, ht, hh⟩ := h.off g hg
    refine ⟨fun hin => ?_, ht, fun k' key hk' => hh k' key (hcases k' key g hk').2⟩
    rcases List.mem_cons.mp hin with rfl | hin
    · exact hh k _ hheld
    · exact hn hin

end Page

/-! ## 3. A range given up -/

/-- The user pages are where they were, but for `n` pages of task `k`. -/
def PagesOff (pmap : ι → PageMap) (s s' : VmmState) (k : ι) (key n : Nat) : Prop :=
  ∀ k' key', key' < userPages → ¬ (k' = k ∧ key ≤ key' ∧ key' < key + n) →
    userPage s'.mem (pmap k') key' = userPage s.mem (pmap k') key'

/-- The first `n` of the pages that hold the frames `fr` were given up. -/
structure Released (own : ι → Uptr → Option (Nat × Nat)) (pmap : ι → PageMap) (held : Holding ι)
    (off : Uptr → Prop) (s s' : VmmState) (k : ι) (key n : Nat) (fr : List Uptr) : Prop where
  held : HeldPages own pmap (unhold held k key n) off s'
  free : s'.free = (fr.take n).reverse ++ s.free
  pages : PagesOff pmap s s' k key n
  gone : ∀ j, j < n → userPage s'.mem (pmap k) (key + j) = none
  stage : ∀ top root key M u, M ≠ 0 → Stage (own k) s top root key M u →
    Stage (own k) s' top root key M u

section Range

variable {own : ι → Uptr → Option (Nat × Nat)} {pmap : ι → PageMap} {held : Holding ι}
  {off : Uptr → Prop} {s s₀ s' : VmmState} {base : Uptr} {k : ι} {n i : Nat} {fr taken : List Uptr}
  {flags : TaskMmapFlags}

theorem released_nil {key : Nat} (h : HeldPages own pmap held off s) :
    Released own pmap held off s s k key 0 fr := by
  refine ⟨?_, rfl, fun _ _ _ _ => rfl, fun j hj => absurd hj (Nat.not_lt_zero j),
    fun _ _ _ _ _ _ hs => hs⟩
  rw [unhold_zero]
  exact h

/-- **The loop that gives a range up.** -/
theorem wp_releaseLoop (h : HeldPages own pmap held off s) (haligned : base.toNat % 4096 = 0)
    (hhigh : base.toNat + 4096 * fr.length ≤ 2 ^ 47)
    (hheld : ∀ j (hj : j < fr.length), held k (base.toNat / 4096 + j) = some fr[j]) :
    wp (forUp fr.length fun j => releasePage (pmap k) (vaddrOf base j)) s fun _ s' =>
      Released own pmap held off s s' k (base.toNat / 4096) fr.length fr := by
  refine wp_forUp (fun i t => Released own pmap held off s t k (base.toNat / 4096) i fr)
    (released_nil h) fun i t hi hr => ?_
  have hva := toNat_vaddrOf base i (by omega)
  have hkey : (vaddrOf base i).toNat / 4096 = base.toNat / 4096 + i := by omega
  have hone : unhold held k (base.toNat / 4096) i k ((vaddrOf base i).toNat / 4096) =
      some fr[i] := by
    unfold unhold
    rw [hkey, if_neg (by omega)]
    exact hheld i hi
  refine wp_mono (wp_releasePage hr.held (by omega) (by omega) hone) fun _ t' ht => ?_
  obtain ⟨hheld', hfree, hset, hstage⟩ := ht
  rw [hkey] at hheld' hset
  rw [unhold_succ] at hheld'
  have hlow : base.toNat / 4096 + i < userPages := by unfold userPages; omega
  refine ⟨hheld', ?_, fun k' key' hkey' hout => ?_, fun j hj => ?_,
    fun top root key M u hM hs => hstage top root key M u hM (hr.stage top root key M u hM hs)⟩
  · rw [hfree, hr.free, List.take_add_one, List.getElem?_eq_getElem hi, Option.toList_some,
      List.reverse_append, List.reverse_singleton, List.append_assoc, List.singleton_append]
  · rw [(hset k' key' hkey').2 fun hin => hout ⟨hin.1, by omega, by omega⟩]
    exact hr.pages k' key' hkey' fun hin => hout ⟨hin.1, hin.2.1, by omega⟩
  · by_cases hji : j = i
    · subst hji
      exact (hset k _ hlow).1 ⟨rfl, rfl⟩
    · rw [(hset k _ (by unfold userPages at hlow ⊢; omega)).2 fun hin => hji (by omega)]
      exact hr.gone j (by omega)

/-! ## 4. A range filled -/

/-- The pages from `key` on hold the frames `fr`, and the frames `taken` are tables on their way:
    as many as the range lacked. -/
structure Filled (pmap : ι → PageMap) (held : Holding ι) (off : Uptr → Prop) (s₀ : VmmState) (k : ι)
    (key : Nat) (own : ι → Uptr → Option (Nat × Nat)) (s : VmmState) (fr taken : List Uptr) :
    Prop where
  held : HeldPages own pmap (holdRange held k key fr) off s
  pages : PagesOff pmap s₀ s k key fr.length
  lack : ∀ key' M, key' < userPages → M ≠ 0 → M ≤ (pmap k).level.num →
    (lacks s.mem key' (pmap k).level.num (pmap k).directory < M ↔
      lacks s₀.mem key' (pmap k).level.num (pmap k).directory < M ∨
        ∃ j, j < fr.length ∧ key' / 512 ^ M = (key + j) / 512 ^ M)
  free : s₀.free.Perm (fr ++ taken ++ s.free)
  cost : taken.length =
    (lacking s₀.mem (pmap k).level.num (pmap k).directory key fr.length).card
  stage : ∀ f ∈ taken, ∃ key' M, M ≠ 0 ∧
    Stage (own k) s (pmap k).level.num (pmap k).directory key' M f

/-- The frames the `n` pages from `key` on of task `k` and their tables need. -/
abbrev need (pmap : ι → PageMap) (s : VmmState) (k : ι) (key n : Nat) : Nat :=
  rangeFrames s.mem (pmap k).level.num (pmap k).directory key n

omit [DecidableEq ι] in
theorem filled_length (hfree : s₀.free.Perm (fr ++ taken ++ s.free))
    (hcost : taken.length =
      (lacking s₀.mem (pmap k).level.num (pmap k).directory n fr.length).card) :
    s₀.free.length = need pmap s₀ k n fr.length + s.free.length := by
  rw [hfree.length_eq, List.length_append, List.length_append, hcost]
  rfl

theorem filled_nil (h : HeldPages own pmap held off s) :
    Filled pmap held off s k n own s [] [] := by
  refine ⟨by rw [holdRange_nil]; exact h, fun _ _ _ _ => rfl, fun key' M _ _ _ => ?_, List.Perm.refl _,
    ?_, fun f hf => absurd hf List.not_mem_nil⟩
  · constructor
    · exact Or.inl
    · intro hor
      rcases hor with hl | ⟨j, hj, -⟩
      · exact hl
      · exact absurd hj (Nat.not_lt_zero j)
  · rfl

theorem mmapPageFlags_addr (flags : TaskMmapFlags) :
    mmapPageFlags flags &&& 0x000FFFFFFFFFF000 = 0#64 := by
  unfold mmapPageFlags
  split
  · split
    · decide
    · decide
  · split
    · decide
    · decide

/-- **The next page of a range**: a free frame and the tables its way lacks, or no more frames. -/
theorem ends_fillPage [Nonempty ι] (pages1gb : Bool) {f : Uptr} {rest : List Uptr}
    (h : Filled pmap held off s₀ k (base.toNat / 4096) own s fr taken)
    (haligned : base.toNat % 4096 = 0) (hhigh : base.toNat + 4096 * (fr.length + 1) ≤ 2 ^ 47)
    (hnone : held k (base.toNat / 4096 + fr.length) = none) (hfree : s.free = f :: rest) :
    ends (vmmMap pages1gb (pmap k) (vaddrOf base fr.length) f (mmapPageFlags flags) MM_PAGE_4KB)
      (s.taken f rest)
      (fun _ s' => ∃ own' taken',
        Filled pmap held off s₀ k (base.toNat / 4096) own' s' (fr ++ [f]) taken')
      (fun e => e = noFrames ∧ rest.length < lacks s.mem (base.toNat / 4096 + fr.length)
        (pmap k).level.num (pmap k).directory) := by
  have hva := toNat_vaddrOf base fr.length (by omega)
  have hkey : (vaddrOf base fr.length).toNat / 4096 = base.toNat / 4096 + fr.length := by omega
  have hlow : base.toNat / 4096 + fr.length < userPages := by unfold userPages; omega
  obtain ⟨hheld, hloose, hsamepages⟩ := heldPages_take h.held hfree
  have hmap := hheld.maps.page k
  have hold := h.held.maps.page k
  have hsame := taken_same h.held.maps hfree k
  have hnum := mapRoot_num hmap.root
  have hvpn : pageNumber (pmap k).level.num (vaddrOf base fr.length) =
      base.toNat / 4096 + fr.length := by
    rw [pageNumber_user hnum (by omega), hkey]
  have ha : MapArgs (vaddrOf base fr.length) f (mmapPageFlags flags) MM_PAGE_4KB :=
    ⟨Or.inl rfl, by rw [hva, show MM_PAGE_4KB.toNat = 4096 from rfl]; omega, hloose.frame.aligned,
      hloose.frame.low, mmapPageFlags_addr flags⟩
  have hlack : ∀ key', key' < userPages →
      lacks (s.taken f rest).mem key' (pmap k).level.num (pmap k).directory =
        lacks s.mem key' (pmap k).level.num (pmap k).directory := fun key' hkey' =>
    lacks_same hold.inv hsame (userMaps_root h.held.maps k hkey')
  refine ends_mono (ends_vmmMap_4KB pages1gb ha hmap.inv hmap.root) (fun _ s' hp => ?_)
    fun e he => ?_
  · obtain ⟨own', ⟨hput, new, hnew, hcost, hstage⟩⟩ := hp
    have hnone' : holdRange held k (base.toNat / 4096) fr k
        ((vaddrOf base fr.length).toNat / 4096) = none := by
      unfold holdRange
      rw [hkey, if_neg (by omega)]
      exact hnone
    have hheld' := heldPages_put hheld hloose ha (by omega) hnone' hput
    have hset := (userMaps_put hheld.maps k ha (by omega) hput).2
    rw [hkey] at hheld' hset
    rw [holdRange_snoc] at hheld'
    have hleaf := leafArgs_of_mapArgs (L := 1) ha (by omega) rfl
    rw [vaLacks, hvpn, hlack _ hlow] at hcost
    refine ⟨_, taken ++ new, hheld', fun k' key' hkey' hout => ?_, fun key' M hkey' hM hL => ?_, ?_,
      ?_, fun g hg => ?_⟩
    · rw [List.length_append, List.length_singleton] at hout
      rw [(hset k' key' hkey').2 fun hin => hout ⟨hin.1, by omega, by omega⟩, hsamepages k' key' hkey']
      exact h.pages k' key' hkey' fun hin => hout ⟨hin.1, hin.2.1, by omega⟩
    · have hkeytop : key' < 512 ^ (pmap k).level.num := by
        unfold userPages at hkey'
        rcases hnum with hl | hl
        all_goals rw [hl]
        all_goals omega
      rw [put_lack hmap.inv hmap.root hleaf hput hkeytop hM hL, hvpn, hlack key' hkey',
        h.lack key' M hkey' hM hL, List.length_append, List.length_singleton, or_assoc]
      refine or_congr_right ⟨fun hor => ?_, fun hex => ?_⟩
      · rcases hor with ⟨j, hj, hje⟩ | hlast
        · exact ⟨j, by omega, hje⟩
        · exact ⟨fr.length, by omega, hlast⟩
      · obtain ⟨j, hj, hje⟩ := hex
        by_cases hjl : j = fr.length
        · exact Or.inr (hjl ▸ hje)
        · exact Or.inl ⟨j, by omega, hje⟩
    · have hmiddle : (taken ++ f :: (new ++ s'.free)).Perm (f :: (taken ++ (new ++ s'.free))) :=
        List.perm_middle
      have hrest : rest = new ++ s'.free := hnew
      refine h.free.trans ?_
      rw [hfree, hrest, List.append_assoc]
      refine (List.Perm.append_left fr hmiddle).trans ?_
      simp only [List.append_assoc, List.cons_append, List.nil_append]
      exact List.Perm.refl _
    · rw [List.length_append, List.length_append, List.length_singleton, h.cost, hcost]
      refine (card_lacking_succ (by rcases hnum with hl | hl <;> omega) fun M hM hL => ?_).symm
      exact h.lack _ M hlow hM hL
    · rw [Function.update_self]
      rcases List.mem_append.mp hg with hg | hg
      · obtain ⟨key', M, hM, hs⟩ := h.stage g hg
        exact ⟨key', M, hM, stage_put hmap.inv hmap.root (by decide)
          (stage_same hold.inv hsame hs) hput (by omega)⟩
      · obtain ⟨M, hM, hs⟩ := hstage g hg
        exact ⟨_, M, by omega, hs⟩
  · obtain ⟨rfl, hlt⟩ := he
    rw [hvpn, hlack _ hlow] at hlt
    exact ⟨rfl, hlt⟩

/-- The range was given up again, and the frames `taken` stay as tables. -/
structure RolledBack (pmap : ι → PageMap) (held : Holding ι) (off : Uptr → Prop) (s₀ : VmmState)
    (k : ι) (key n : Nat) (own : ι → Uptr → Option (Nat × Nat)) (s : VmmState)
    (taken : List Uptr) : Prop where
  held : HeldPages own pmap held off s
  pages : PagesOff pmap s₀ s k key n
  gone : ∀ j, j < n → userPage s.mem (pmap k) (key + j) = none
  free : s₀.free.Perm (taken ++ s.free)
  stage : ∀ f ∈ taken, ∃ key' M, M ≠ 0 ∧
    Stage (own k) s (pmap k).level.num (pmap k).directory key' M f

/-- What was filled, given up. -/
theorem rolledBack_of {own' : ι → Uptr → Option (Nat × Nat)} {key : Nat}
    (h : Filled pmap held off s₀ k key own' s fr taken)
    (hnone : ∀ key', key ≤ key' → key' < key + fr.length → held k key' = none)
    (hr : Released own' pmap (holdRange held k key fr) off s s' k key fr.length fr) :
    RolledBack pmap held off s₀ k key fr.length own' s' taken := by
  have hheld := hr.held
  rw [unhold_holdRange hnone] at hheld
  refine ⟨hheld, fun k' key' hkey' hout => ?_, hr.gone, ?_, fun f hf => ?_⟩
  · rw [hr.pages k' key' hkey' hout]
    exact h.pages k' key' hkey' hout
  · have hback : (taken ++ (fr.reverse ++ s.free)).Perm (fr ++ taken ++ s.free) := by
      rw [← List.append_assoc]
      refine List.Perm.append_right _ ?_
      exact (List.Perm.append_left _ (List.reverse_perm fr)).trans List.perm_append_comm
    rw [hr.free, List.take_length]
    exact h.free.trans hback.symm
  · obtain ⟨key', M, hM, hs⟩ := h.stage f hf
    exact ⟨key', M, hM, hr.stage _ _ _ _ _ hM hs⟩

/-- **The loop of `task_mmap`.** With `F` free frames it fills the range if `F` is as much as all
    pages need; it gives up what it took if `F` is exactly what the first `i` of them need; and
    otherwise a table misses its frame, and `pmm_alloc` panics. -/
theorem ends_mmapPages [Nonempty ι] (pages1gb : Bool) (h : HeldPages own pmap held off s₀)
    (haligned : base.toNat % 4096 = 0) (hhigh : base.toNat + 4096 * n ≤ 2 ^ 47)
    (hnone : ∀ key, base.toNat / 4096 ≤ key → key < base.toNat / 4096 + n → held k key = none) :
    ends (mmapPages pages1gb (pmap k) base flags n) s₀
      (fun b s => if b then
          ∃ own' fr taken, fr.length = n ∧ Filled pmap held off s₀ k (base.toNat / 4096) own' s fr taken
        else ∃ i own' taken, i < n ∧ s₀.free.length = need pmap s₀ k (base.toNat / 4096) i ∧
          RolledBack pmap held off s₀ k (base.toNat / 4096) i own' s taken)
      (fun e => e = noFrames ∧ ∃ i, i < n ∧ need pmap s₀ k (base.toNat / 4096) i < s₀.free.length ∧
        s₀.free.length < need pmap s₀ k (base.toNat / 4096) (i + 1)) := by
  unfold mmapPages
  refine ends_forUpWhile (fun i s => ∃ own' fr taken, fr.length = i ∧
    Filled pmap held off s₀ k (base.toNat / 4096) own' s fr taken) _
    ⟨own, [], [], rfl, filled_nil h⟩ fun i s hi hf => ?_
  obtain ⟨own', fr, taken, rfl, hf⟩ := hf
  have hlength : s₀.free.length = need pmap s₀ k (base.toNat / 4096) fr.length + s.free.length :=
    filled_length hf.free hf.cost
  rw [ends_bind]
  by_cases hfree : s.free = []
  · -- no frame for the page: roll back
    rw [ends_of_eq (pmmTryAllocFrame_nil hfree), if_pos rfl, ends_bind]
    have hin : ∀ j (hj : j < fr.length), holdRange held k (base.toNat / 4096) fr k
        (base.toNat / 4096 + j) = some fr[j] := fun j hj => holdRange_get hj
    refine ends_of_wp (wp_mono (wp_releaseLoop hf.held haligned (by omega) hin) fun _ s' hr => ?_)
    rw [ends_pure, if_neg (by decide)]
    refine ⟨fr.length, own', taken, hi, ?_, rolledBack_of hf (fun key' hlo hhi => ?_) hr⟩
    · rw [hlength, hfree, List.length_nil, Nat.add_zero]
    · exact hnone key' hlo (by omega)
  · obtain ⟨f, rest, hcons⟩ := List.exists_cons_of_ne_nil hfree
    have hf0 : f ≠ 0 := hf.held.nonzero f (by rw [hcons]; exact List.mem_cons_self)
    have hnum := mapRoot_num (hf.held.maps.page k).root
    rw [ends_of_eq (pmmTryAllocFrame_cons hcons), if_neg hf0, ends_bind]
    refine ends_mono (ends_fillPage pages1gb hf haligned (by omega)
      (hnone _ (by omega) (by omega)) hcons) (fun _ s' hs => ?_) fun e he => ?_
    · obtain ⟨own'', taken', hs⟩ := hs
      rw [ends_pure, if_pos rfl]
      exact ⟨own'', fr ++ [f], taken', by rw [List.length_append, List.length_singleton], hs⟩
    · obtain ⟨rfl, hlt⟩ := he
      have hlow : base.toNat / 4096 + fr.length < userPages := by unfold userPages; omega
      have hcard := card_lacking_succ (by rcases hnum with hl | hl <;> omega)
        fun M hM hL => hf.lack (base.toNat / 4096 + fr.length) M hlow hM hL
      rw [hcons, List.length_cons] at hlength
      refine ⟨rfl, fr.length, hi, by omega, ?_⟩
      unfold need rangeFrames at hlength ⊢
      omega

end Range

end Slightx
