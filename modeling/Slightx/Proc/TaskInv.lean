/-
  File:      Slightx/Proc/TaskInv.lean
  Subject:   What the calls of `task_mmap` and `task_munmap` keep.

  * `mapTarget` -- the range a request is for, where its checks let it pass, and `mapTarget_some`:
    it is a range of user pages that no mapping of the task overlaps;
  * `TasksInv` -- the lists of mappings, their ranges, and the pages they hold;
  * `ends_taskMmap` -- `task_mmap` refuses, maps, or runs out of frames and leaves all as it was but
    for page tables; otherwise `pmm_alloc` panics;
  * `wp_taskMunmap` -- `task_munmap` returns, and gives up the one mapping it was asked for
-/
import Slightx.Proc.TaskPages

namespace Slightx

open Lib

variable {ι : Type}

/-! ## 1. Ranges -/

/-- A mapping whose range is made of user pages below the startup data. -/
structure RangeOk (m : TaskMapping) : Prop where
  aligned : m.vaddr.toNat % 4096 = 0
  low : 4096 ≤ m.vaddr.toNat
  pages : 0 < m.pageCount.toNat
  high : m.vaddr.toNat + 4096 * m.pageCount.toNat ≤ USER_STARTUP_BASE.toNat

/-- The ranges of two mappings do not overlap. -/
def RangesApart (m m' : TaskMapping) : Prop :=
  m.vaddr.toNat + 4096 * m.pageCount.toNat ≤ m'.vaddr.toNat ∨
    m'.vaddr.toNat + 4096 * m'.pageCount.toNat ≤ m.vaddr.toNat

/-- Page `key` is in the range of the mapping. -/
def InRange (m : TaskMapping) (key : Nat) : Prop :=
  m.vaddr.toNat / 4096 ≤ key ∧ key < m.vaddr.toNat / 4096 + m.pageCount.toNat

/-- The mapping has pages: it is one with the READ flag. -/
def Readable (m : TaskMapping) : Prop := m.flags &&& TASK_MMAP_ACCESS_READ.setWidth 64 ≠ 0

instance (m : TaskMapping) : Decidable (Readable m) := inferInstanceAs (Decidable (_ ≠ _))

/-- The range a request is for: its first address and the number of its pages. -/
def mapTarget (s : Tasks ι) (self : ι) (addr : Uptr) (length : Usize) (flags : TaskMmapFlags) :
    Option (Uptr × Nat) :=
  (taskRoundToPage length).bind fun length =>
    (taskMmapPlace s self addr length flags).map fun base =>
      (base, (length / MM_VIRT_PAGE_SIZE).toNat)

section Ranges

variable {m m' : TaskMapping} {s : Tasks ι} {self : ι} {addr base : Uptr} {length l : Usize}
  {flags : TaskMmapFlags} {n key : Nat}

theorem toNat_rangeEnd (h : RangeOk m) :
    (m.vaddr + m.pageCount * MM_VIRT_PAGE_SIZE).toNat = m.vaddr.toNat + 4096 * m.pageCount.toNat := by
  have hhigh := h.high
  rw [show USER_STARTUP_BASE.toNat = 140737471578112 from rfl] at hhigh
  rw [BitVec.toNat_add, BitVec.toNat_mul, show MM_VIRT_PAGE_SIZE.toNat = 4096 from rfl]
  omega

theorem taskRoundToPage_some (h : taskRoundToPage length = some l) :
    l.toNat % 4096 = 0 ∧ 0 < l.toNat ∧ length.toNat ≤ l.toNat ∧ l.toNat < length.toNat + 4096 := by
  unfold taskRoundToPage at h
  split at h
  · cases h
  · rename_i h0
    split at h
    · cases h
    · rename_i hmax
      cases h
      have hpage : MM_VIRT_PAGE_SIZE.toNat = 4096 := rfl
      have hpos : 0 < length.toNat := by
        refine Nat.pos_of_ne_zero fun hz => h0 ?_
        apply BitVec.eq_of_toNat_eq
        rw [hz]
        rfl
      have hle : length.toNat + MM_VIRT_PAGE_SIZE.toNat ≤ 2 ^ 64 := by
        rw [BitVec.lt_def, Nat.not_lt] at hmax
        rw [show (BitVec.allOnes 64 - (MM_VIRT_PAGE_SIZE - 1)).toNat = 2 ^ 64 - 4096 from by decide]
          at hmax
        omega
      rw [toNat_alignSizeUp (by decide) hle, hpage]
      omega

theorem firstFree_some {overlaps : Uptr → Bool} {candidate : Uptr}
    (h : firstFree overlaps n candidate = some base) :
    overlaps base = false ∧ ∃ i, i < n ∧ base = vaddrOf candidate i := by
  induction n generalizing candidate with
  | zero => cases h
  | succ n ih =>
      unfold firstFree at h
      split at h
      · rename_i hfree
        cases h
        refine ⟨by simpa using hfree, 0, Nat.succ_pos n, ?_⟩
        unfold vaddrOf
        simp
      · obtain ⟨hfree, i, hi, hbase⟩ := ih h
        refine ⟨hfree, i + 1, Nat.succ_lt_succ hi, ?_⟩
        rw [hbase]
        unfold vaddrOf
        apply BitVec.eq_of_toNat_eq
        simp only [BitVec.toNat_add, BitVec.toNat_mul, BitVec.toNat_ofNat,
          show MM_VIRT_PAGE_SIZE.toNat = 4096 from rfl]
        omega

/-- **Where a range is put**: among the user pages below the startup data, and over no mapping. -/
theorem taskMmapPlace_some (hl : l.toNat % 4096 = 0) (hpos : 0 < l.toNat)
    (h : taskMmapPlace s self addr l flags = some base) :
    base.toNat % 4096 = 0 ∧ 4096 ≤ base.toNat ∧ base.toNat + l.toNat ≤ USER_STARTUP_BASE.toNat ∧
      taskMappingOverlaps s self base l = false := by
  have htop : USER_STACK_TOP.toNat = 140737488347136 := rfl
  have hstart : USER_STARTUP_BASE.toNat = 140737471578112 := rfl
  have hsearch : MMAP_SEARCH_BASE.toNat = 17592186044416 := rfl
  unfold taskMmapPlace at h
  split at h
  · split at h
    · cases h
    · rename_i hchecks
      obtain rfl : base = addr := (Option.some.inj h).symm
      simp only [Bool.or_eq_true, not_or, decide_eq_true_eq, Bool.not_eq_true', Bool.not_eq_false,
        Bool.not_eq_true] at hchecks
      obtain ⟨⟨⟨⟨⟨h0, haligned⟩, htop'⟩, hlen⟩, hres⟩, hover⟩ := hchecks
      rw [isPtrAligned_iff, show MM_VIRT_PAGE_SIZE.toNat = 4096 from rfl] at haligned
      rw [BitVec.lt_def, Nat.not_lt] at htop' hlen
      rw [BitVec.toNat_sub_of_le (by rw [BitVec.le_def]; exact htop')] at hlen
      have hne : base.toNat ≠ 0 := fun hz => h0 (BitVec.eq_of_toNat_eq (by rw [hz]; rfl))
      have hend : (base + l).toNat = base.toNat + l.toNat := by
        rw [BitVec.toNat_add]
        omega
      unfold taskRangeHitsReserved at hres
      simp only [Bool.not_eq_false', Bool.or_eq_true, decide_eq_true_eq, BitVec.le_def, hend] at hres
      exact ⟨haligned, by omega, by omega, hover⟩
  · dsimp only at h
    split at h
    · cases h
    · rename_i hlen
      rw [BitVec.lt_def, Nat.not_lt, BitVec.toNat_sub_of_le (by decide)] at hlen
      obtain ⟨hover, i, hi, hbase⟩ := firstFree_some h
      have hlast : (USER_STARTUP_BASE - l - MMAP_SEARCH_BASE).toNat =
          USER_STARTUP_BASE.toNat - l.toNat - MMAP_SEARCH_BASE.toNat := by
        have hle : (USER_STARTUP_BASE - l).toNat = USER_STARTUP_BASE.toNat - l.toNat :=
          BitVec.toNat_sub_of_le (by rw [BitVec.le_def]; omega)
        rw [BitVec.toNat_sub_of_le (by rw [BitVec.le_def, hle]; omega), hle]
      rw [hlast, show MM_VIRT_PAGE_SIZE.toNat = 4096 from rfl] at hi
      have hva := toNat_vaddrOf MMAP_SEARCH_BASE i (by omega)
      rw [← hbase] at hva
      exact ⟨by omega, by omega, by omega, hover⟩

/-- Overlap, as the source computes it. -/
theorem overlaps_false (hm : ∀ m ∈ s.mappings self, RangeOk (s.mapping m))
    (hhigh : base.toNat + l.toNat < 2 ^ 64) (h : taskMappingOverlaps s self base l = false) :
    ∀ m ∈ s.mappings self, base.toNat + l.toNat ≤ (s.mapping m).vaddr.toNat ∨
      (s.mapping m).vaddr.toNat + 4096 * (s.mapping m).pageCount.toNat ≤ base.toNat := by
  intro m hmem
  unfold taskMappingOverlaps at h
  have hone := List.any_eq_false.mp h m hmem
  have hend : (base + l).toNat = base.toNat + l.toNat := by
    rw [BitVec.toNat_add]
    omega
  simp only [Bool.not_eq_true, Bool.not_eq_false', Bool.or_eq_true, decide_eq_true_eq, BitVec.le_def,
    hend, toNat_rangeEnd (hm m hmem)] at hone
  exact hone

/-- **The range of a request that passes the checks.** -/
theorem mapTarget_some (hm : ∀ m ∈ s.mappings self, RangeOk (s.mapping m))
    (h : mapTarget s self addr length flags = some (base, n)) (f : U64) :
    RangeOk ⟨base, f, BitVec.ofNat 64 n⟩ ∧ (BitVec.ofNat 64 n).toNat = n ∧
      ∀ m ∈ s.mappings self, RangesApart ⟨base, f, BitVec.ofNat 64 n⟩ (s.mapping m) := by
  unfold mapTarget at h
  obtain ⟨l, hl, h⟩ := Option.bind_eq_some_iff.mp h
  obtain ⟨b, hb, h⟩ := Option.map_eq_some_iff.mp h
  obtain ⟨rfl, rfl⟩ := Prod.mk.inj h
  obtain ⟨hround, hpos, -, -⟩ := taskRoundToPage_some hl
  obtain ⟨haligned, hlow, hhigh, hover⟩ := taskMmapPlace_some hround hpos hb
  have hpages : (l / MM_VIRT_PAGE_SIZE).toNat = l.toNat / 4096 := by
    rw [BitVec.toNat_udiv, show MM_VIRT_PAGE_SIZE.toNat = 4096 from rfl]
  have hofNat : (BitVec.ofNat 64 (l / MM_VIRT_PAGE_SIZE).toNat).toNat =
      (l / MM_VIRT_PAGE_SIZE).toNat := ofNat_toNat_lt (BitVec.isLt _)
  refine ⟨⟨haligned, hlow, ?_, ?_⟩, hofNat, fun m hmem => ?_⟩
  · show 0 < (BitVec.ofNat 64 (l / MM_VIRT_PAGE_SIZE).toNat).toNat
    omega
  · show b.toNat + 4096 * (BitVec.ofNat 64 (l / MM_VIRT_PAGE_SIZE).toNat).toNat ≤ _
    omega
  · have hapart := overlaps_false hm (by
      rw [show USER_STARTUP_BASE.toNat = 140737471578112 from rfl] at hhigh
      omega) hover m hmem
    show b.toNat + 4096 * (BitVec.ofNat 64 (l / MM_VIRT_PAGE_SIZE).toNat).toNat ≤ _ ∨ _ ≤ b.toNat
    omega

end Ranges

/-! ## 2. The invariant -/

variable [DecidableEq ι]

abbrev Tasks.pmaps (s : Tasks ι) : ι → PageMap := fun k => (s.task k).pmap

/-- The frames of the kernel's heap, and those of others. -/
def Tasks.notOurs (s : Tasks ι) (off : Uptr → Prop) (f : Uptr) : Prop := f ∈ s.heapFrames ∨ off f

/-- The frames of the kernel's heap are frames, none twice and none of others. -/
structure HeapOk (off : Uptr → Prop) (heap : List Uptr) : Prop where
  frame : ∀ f ∈ heap, FrameOk f ∧ f ≠ 0 ∧ ¬ off f
  nodup : heap.Nodup

/-- **The lists of mappings, their ranges and the pages they hold.** The records of task `k` are
    those of `list k`, in order; frames that are `off` are no part of this. -/
structure TasksInv (own : ι → Uptr → Option (Nat × Nat)) (held : Holding ι) (off : Uptr → Prop)
    (list : ι → List Uptr) (s : Tasks ι) : Prop where
  pages : HeldPages own s.pmaps held (s.notOurs off) s.vmm
  heap : HeapOk off s.heapFrames
  dlist : ∀ k, DList s.links (s.task k).mappings (list k).getLast? (list k)
  record : ∀ k, ∀ m ∈ list k, m ∈ s.records
  one : ∀ k k' m, m ∈ list k → m ∈ list k' → k = k'
  range : ∀ k, ∀ m ∈ list k, RangeOk (s.mapping m)
  apart : ∀ k m m', m ∈ list k → m' ∈ list k → m ≠ m' →
    RangesApart (s.mapping m) (s.mapping m')
  backed : ∀ k, ∀ m ∈ list k, Readable (s.mapping m) → ∀ key, InRange (s.mapping m) key →
    held k key ≠ none
  owned : ∀ k key f, held k key = some f →
    ∃ m ∈ list k, Readable (s.mapping m) ∧ InRange (s.mapping m) key

/-- The lists of two states are one. -/
structure SameLists (s s' : Tasks ι) : Prop where
  task : s'.task = s.task
  mapping : s'.mapping = s.mapping
  links : s'.links = s.links
  records : s'.records = s.records

/-- The state with a record in front of the list of `self`. -/
def Tasks.added (s : Tasks ι) (self : ι) (block : Uptr) (r : TaskMapping) : Tasks ι :=
  { s with
    records := block :: s.records
    mapping := Function.update s.mapping block r
    links := linkFront (Function.update s.links block ⟨none, none⟩) (s.task self).mappings block
    task := Function.update s.task self { s.task self with mappings := some block } }

/-- The state without a record of the list of `self`. -/
def Tasks.removed (s : Tasks ι) (self : ι) (m : Uptr) (frames : Nat) : Tasks ι :=
  { s with
    records := s.records.erase m
    links := bypass s.links m
    task := if (s.links m).prev = none then
        Function.update s.task self { s.task self with mappings := (s.links m).next }
      else s.task
    heapFrames := s.heapFrames.drop frames
    vmm := { s.vmm with free := s.heapFrames.take frames ++ s.vmm.free } }

section Lists

variable {own own' : ι → Uptr → Option (Nat × Nat)} {held held' : Holding ι} {off : Uptr → Prop}
  {list : ι → List Uptr} {s s₁ : Tasks ι} {self : ι} {block m : Uptr} {r : TaskMapping}

omit [DecidableEq ι] in
/-- A walk over the mappings passes the records of the list. -/
theorem inv_mappings (h : TasksInv own held off list s) (k : ι) : s.mappings k = list k :=
  passed_dlist (h.dlist k) ((h.dlist k).nodup.subperm (h.record k)).length_le

theorem pmaps_added : (s.added self block r).pmaps = s.pmaps := by
  funext k
  unfold Tasks.pmaps Tasks.added
  dsimp only
  by_cases hk : k = self
  · subst hk
    rw [Function.update_self]
  · rw [Function.update_of_ne hk]

theorem pmaps_removed {frames : Nat} : (s.removed self m frames).pmaps = s.pmaps := by
  funext k
  unfold Tasks.pmaps Tasks.removed
  dsimp only
  split
  · by_cases hk : k = self
    · subst hk
      rw [Function.update_self]
    · rw [Function.update_of_ne hk]
  · rfl

omit [DecidableEq ι] in
theorem ranges_symm {a b : TaskMapping} (h : RangesApart a b) : RangesApart b a := h.symm

/-- **A record with a range of its own is put in front.** -/
theorem inv_added (h : TasksInv own held off list s) (hsame : SameLists s s₁)
    (hpages : HeldPages own' s.pmaps held' (s₁.notOurs off) s₁.vmm) (hheap : HeapOk off s₁.heapFrames)
    (hfresh : block ∉ s.records) (hr : RangeOk r)
    (hapart : ∀ m ∈ list self, RangesApart r (s.mapping m))
    (hold : ∀ k key, ¬ (k = self ∧ Readable r ∧ InRange r key) → held' k key = held k key)
    (hnew : Readable r → ∀ key, InRange r key → held' self key ≠ none) :
    TasksInv own' held' off (Function.update list self (block :: list self))
      (s₁.added self block r) := by
  obtain ⟨htask, hmapping, hlinks, hrecords⟩ := hsame
  have hout : ∀ k, block ∉ list k := fun k hk => hfresh (h.record k block hk)
  have hrest : ∀ k, ∀ m ∈ list k, (s₁.added self block r).mapping m = s.mapping m := by
    intro k m hm
    unfold Tasks.added
    rw [hmapping]
    exact Function.update_of_ne (fun he : m = block => hout k (by rw [← he]; exact hm)) _ _
  have hself : (s₁.added self block r).mapping block = r := Function.update_self _ _ _
  -- the members of the new lists
  have hmem : ∀ k m, m ∈ Function.update list self (block :: list self) k →
      (k = self ∧ m = block) ∨ m ∈ list k := by
    intro k m hm
    by_cases hk : k = self
    · subst hk
      rw [Function.update_self] at hm
      rcases List.mem_cons.mp hm with hm | hm
      · exact Or.inl ⟨rfl, hm⟩
      · exact Or.inr hm
    · rw [Function.update_of_ne hk] at hm
      exact Or.inr hm
  have hkept : ∀ k, ∀ m ∈ list k, m ∈ Function.update list self (block :: list self) k := by
    intro k m hm
    by_cases hk : k = self
    · subst hk
      rw [Function.update_self]
      exact List.mem_cons_of_mem _ hm
    · rw [Function.update_of_ne hk]
      exact hm
  have hfront : block ∈ Function.update list self (block :: list self) self := by
    rw [Function.update_self]
    exact List.mem_cons_self
  have hpm : s₁.pmaps = s.pmaps := by unfold Tasks.pmaps; rw [htask]
  refine ⟨by rw [pmaps_added, hpm]; exact hpages, hheap, fun k => ?_, fun k m hm => ?_,
    fun k k' m hm hm' => ?_, fun k m hm => ?_, fun k m m' hm hm' hne => ?_,
    fun k m hm hread key hkey => ?_, fun k key f hf => ?_⟩
  · by_cases hk : k = self
    · subst hk
      have hpush := dlist_push (dlist_update (h.dlist k) (hout k) ⟨none, none⟩) (hout k)
      have hhead : ((s₁.added k block r).task k).mappings = some block := by
        unfold Tasks.added
        dsimp only
        rw [Function.update_self]
      have htail := hpush.tail
      rw [htail] at hpush
      rw [Function.update_self, hhead]
      unfold Tasks.added
      rw [htask, hlinks]
      exact hpush
    · rw [Function.update_of_ne hk]
      have hhead : ((s₁.added self block r).task k).mappings = (s.task k).mappings := by
        unfold Tasks.added
        dsimp only
        rw [Function.update_of_ne hk, htask]
      rw [hhead]
      refine dlist_congr (h.dlist k) fun a ha => ?_
      have hab : a ≠ block := fun he => hout k (by rw [← he]; exact ha)
      have hahead : (s.task self).mappings ≠ some a := by
        intro he
        have hin : a ∈ list self := by
          have hd := (h.dlist self).head
          rw [he] at hd
          exact List.mem_of_mem_head? hd.symm
        exact hk (h.one k self a ha hin)
      unfold Tasks.added
      rw [htask, hlinks]
      exact (linkFront_of_ne hab hahead).trans (Function.update_of_ne hab _ _)
  · have hrec : (s₁.added self block r).records = block :: s.records := by
      unfold Tasks.added
      rw [hrecords]
    rw [hrec]
    rcases hmem k m hm with ⟨-, rfl⟩ | hm
    · exact List.mem_cons_self
    · exact List.mem_cons_of_mem _ (h.record k m hm)
  · rcases hmem k m hm with ⟨rfl, rfl⟩ | hm₁
    · rcases hmem k' m hm' with ⟨rfl, -⟩ | hm₂
      · rfl
      · exact absurd hm₂ (hout k')
    · rcases hmem k' m hm' with ⟨rfl, rfl⟩ | hm₂
      · exact absurd hm₁ (hout k)
      · exact h.one k k' m hm₁ hm₂
  · rcases hmem k m hm with ⟨-, rfl⟩ | hm
    · rw [hself]
      exact hr
    · rw [hrest k m hm]
      exact h.range k m hm
  · rcases hmem k m hm with ⟨rfl, rfl⟩ | hm₁
    · rcases hmem k m' hm' with ⟨-, rfl⟩ | hm₂
      · exact absurd rfl hne
      · rw [hself, hrest k m' hm₂]
        exact hapart m' hm₂
    · rcases hmem k m' hm' with ⟨rfl, rfl⟩ | hm₂
      · rw [hself, hrest k m hm₁]
        exact ranges_symm (hapart m hm₁)
      · rw [hrest k m hm₁, hrest k m' hm₂]
        exact h.apart k m m' hm₁ hm₂ hne
  · rcases hmem k m hm with ⟨rfl, rfl⟩ | hm₁
    · rw [hself] at hread hkey
      exact hnew hread key hkey
    · rw [hrest k m hm₁] at hread hkey
      rw [hold k key fun hin => ?_]
      · exact h.backed k m hm₁ hread key hkey
      · -- the new range is no page of the old one
        obtain ⟨rfl, -, hlo, hhi⟩ := hin
        have ha := hapart m hm₁
        have hra := hr.aligned
        have hma := (h.range k m hm₁).aligned
        unfold RangesApart at ha
        obtain ⟨hlo', hhi'⟩ := hkey
        omega
  · by_cases hin : k = self ∧ Readable r ∧ InRange r key
    · obtain ⟨rfl, hread, hkey⟩ := hin
      refine ⟨block, hfront, ?_⟩
      rw [hself]
      exact ⟨hread, hkey⟩
    · rw [hold k key hin] at hf
      obtain ⟨m, hm, hread, hkey⟩ := h.owned k key f hf
      refine ⟨m, hkept k m hm, ?_⟩
      rw [hrest k m hm]
      exact ⟨hread, hkey⟩

omit [DecidableEq ι] in
/-- Frames the heap gives back are free again. -/
theorem heldPages_give [Nonempty ι] {pmap : ι → PageMap} {vmm : VmmState} {heap : List Uptr}
    (h : HeldPages own pmap held (fun f => f ∈ heap ∨ off f) vmm) (hheap : HeapOk off heap)
    (n : Nat) :
    HeldPages own pmap held (fun f => f ∈ heap.drop n ∨ off f)
      { vmm with free := heap.take n ++ vmm.free } := by
  obtain ⟨k₀⟩ := ‹Nonempty ι›
  have htake : ∀ f ∈ heap.take n, f ∈ heap := fun f hf => List.mem_of_mem_take hf
  have hdrop : ∀ f ∈ heap.drop n, f ∈ heap := fun f hf => List.mem_of_mem_drop hf
  have hsplit : (heap.take n ++ heap.drop n).Nodup := by
    rw [List.take_append_drop]
    exact hheap.nodup
  obtain ⟨htn, -, hdis⟩ := List.nodup_append.mp hsplit
  have hfree : ∀ f ∈ heap.take n ++ vmm.free, FrameOk f ∧ ∀ k, own k f = none := by
    intro f hf
    rcases List.mem_append.mp hf with hf | hf
    · exact ⟨(hheap.frame f (htake f hf)).1, (h.off f (Or.inl (htake f hf))).2.1⟩
    · exact ⟨((h.maps.page k₀).inv.free f hf).1, fun k => ((h.maps.page k).inv.free f hf).2⟩
  have hnd : (heap.take n ++ vmm.free).Nodup := by
    refine List.nodup_append.mpr ⟨htn, (h.maps.page k₀).inv.nodup, fun f hf g hg he => ?_⟩
    exact (h.off f (Or.inl (htake f hf))).1 (he ▸ hg)
  refine ⟨userMaps_free h.maps hfree hnd, fun f hf => ?_, h.page, fun k key f hf => ?_, h.once,
    fun f hf => ?_⟩
  · rcases List.mem_append.mp hf with hf | hf
    · exact (hheap.frame f (htake f hf)).2.1
    · exact h.nonzero f hf
  · obtain ⟨hok, h0, hn, ht⟩ := h.frame k key f hf
    refine ⟨hok, h0, fun hin => ?_, ht⟩
    rcases List.mem_append.mp hin with hin | hin
    · exact (h.off f (Or.inl (htake f hin))).2.2 k key hf
    · exact hn hin
  · have hold : f ∈ heap ∨ off f := hf.imp_left (hdrop f)
    obtain ⟨hn, ht, hh⟩ := h.off f hold
    refine ⟨fun hin => ?_, ht, hh⟩
    rcases List.mem_append.mp hin with hin | hin
    · rcases hf with hf | hf
      · exact hdis f hin f hf rfl
      · exact (hheap.frame f (htake f hin)).2.2 hf
    · exact hn hin

/-- **A record is taken out of its list**, after the pages it held were given up. -/
theorem inv_removed [Nonempty ι] (h : TasksInv own held off list s) (hm : m ∈ list self)
    {vmm : VmmState} (hpages : HeldPages own s.pmaps held' (s.notOurs off) vmm) (frames : Nat)
    (hold : ∀ k key, ¬ (k = self ∧ Readable (s.mapping m) ∧ InRange (s.mapping m) key) →
      held' k key = held k key)
    (hgone : Readable (s.mapping m) → ∀ key, InRange (s.mapping m) key → held' self key = none) :
    TasksInv own held' off (Function.update list self ((list self).erase m))
      (Tasks.removed { s with vmm } self m frames) := by
  have hnd := (h.dlist self).nodup
  -- the members of the new lists
  have hmem : ∀ k a, a ∈ Function.update list self ((list self).erase m) k ↔ a ∈ list k ∧ a ≠ m := by
    intro k a
    by_cases hk : k = self
    · subst hk
      rw [Function.update_self, hnd.mem_erase_iff]
      exact and_comm
    · rw [Function.update_of_ne hk]
      refine ⟨fun ha => ⟨ha, fun he => hk (h.one k self a ha ?_)⟩, fun ha => ha.1⟩
      rw [he]
      exact hm
  refine ⟨?_, ⟨fun f hf => h.heap.frame f (List.mem_of_mem_drop hf), h.heap.nodup.drop⟩,
    fun k => ?_, fun k a ha => ?_, fun k k' a ha ha' => ?_, fun k a ha => ?_,
    fun k a a' ha ha' => ?_, fun k a ha hread key hkey => ?_, fun k key f hf => ?_⟩
  · rw [pmaps_removed]
    exact heldPages_give hpages h.heap frames
  · obtain ⟨l₁, l₂, hl⟩ := List.append_of_mem hm
    by_cases hk : k = self
    · subst hk
      have hd := h.dlist k
      rw [hl] at hd hnd
      have hby := dlist_bypass hd
      have hl₁ : m ∉ l₁ := fun hin =>
        (List.nodup_append.mp hnd).2.2 m hin m List.mem_cons_self rfl
      have herase : (list k).erase m = l₁ ++ l₂ := by
        rw [hl, List.erase_append_right _ hl₁, List.erase_cons_head]
      have htail := hby.tail
      rw [htail] at hby
      have hhead : ((Tasks.removed { s with vmm } k m frames).task k).mappings =
          if (s.links m).prev = none then (s.links m).next else (s.task k).mappings := by
        unfold Tasks.removed
        dsimp only
        split
        · rw [Function.update_self]
        · rfl
      rw [Function.update_self, hhead, herase]
      exact hby
    · have hhead : ((Tasks.removed { s with vmm } self m frames).task k).mappings =
          (s.task k).mappings := by
        unfold Tasks.removed
        dsimp only
        split
        · rw [Function.update_of_ne hk]
        · rfl
      rw [Function.update_of_ne hk, hhead]
      refine dlist_congr (h.dlist k) fun a ha => ?_
      have hd := h.dlist self
      rw [hl] at hd
      refine bypass_of_notMem hd fun hin => hk (h.one k self a ha ?_)
      rw [hl]
      rcases List.mem_append.mp hin with hin | hin
      · exact List.mem_append_left _ hin
      · exact List.mem_append_right _ (List.mem_cons_of_mem _ hin)
  · obtain ⟨ha, hne⟩ := (hmem k a).mp ha
    exact (List.mem_erase_of_ne hne).mpr (h.record k a ha)
  · exact h.one k k' a ((hmem k a).mp ha).1 ((hmem k' a).mp ha').1
  · exact h.range k a ((hmem k a).mp ha).1
  · exact h.apart k a a' ((hmem k a).mp ha).1 ((hmem k a').mp ha').1
  · obtain ⟨ha₁, hne⟩ := (hmem k a).mp ha
    show held' k key ≠ none
    rw [hold k key fun hin => ?_]
    · exact h.backed k a ha₁ hread key hkey
    · -- the ranges of two mappings share no page
      obtain ⟨rfl, -, hlo, hhi⟩ := hin
      have hapart : RangesApart (s.mapping a) (s.mapping m) := h.apart k a m ha₁ hm hne
      have haa := (h.range k a ha₁).aligned
      have hma := (h.range k m hm).aligned
      obtain ⟨hlo', hhi'⟩ : InRange (s.mapping a) key := hkey
      unfold RangesApart at hapart
      omega
  · by_cases hin : k = self ∧ Readable (s.mapping m) ∧ InRange (s.mapping m) key
    · obtain ⟨rfl, hread, hkey⟩ := hin
      rw [hgone hread key hkey] at hf
      cases hf
    · rw [hold k key hin] at hf
      obtain ⟨a, ha, hread, hkey⟩ := h.owned k key f hf
      refine ⟨a, (hmem k a).mpr ⟨ha, fun he => hin ⟨h.one k self a ha (he ▸ hm), ?_⟩⟩, hread, hkey⟩
      rw [← he]
      exact ⟨hread, hkey⟩

end Lists

/-! ## 3. The heap takes frames -/

/-- The heap has `n` frames more, and no list and no user page is another. -/
structure HeapGrew (own : ι → Uptr → Option (Nat × Nat)) (held : Holding ι) (off : Uptr → Prop)
    (s s' : Tasks ι) (n : Nat) : Prop where
  lists : SameLists s s'
  pages : HeldPages own s.pmaps held (s'.notOurs off) s'.vmm
  heap : HeapOk off s'.heapFrames
  same : ∀ k key, key < userPages →
    userPage s'.vmm.mem (s.pmaps k) key = userPage s.vmm.mem (s.pmaps k) key
  taken : ∃ taken, s.vmm.free = taken ++ s'.vmm.free ∧ taken.length = n

section Heap

variable {own : ι → Uptr → Option (Nat × Nat)} {held : Holding ι} {off : Uptr → Prop}
  {s : Tasks ι}

omit [DecidableEq ι] in
/-- A frame that was taken goes to others. -/
theorem heldPages_off {pmap : ι → PageMap} {vmm : VmmState} {f : Uptr}
    (h : HeldPages own pmap held off vmm) (hf : Loose own held off vmm f) :
    HeldPages own pmap held (fun g => g = f ∨ off g) vmm := by
  refine ⟨h.maps, h.nonzero, h.page, h.frame, h.once, fun g hg => ?_⟩
  rcases hg with rfl | hg
  · exact ⟨hf.free, hf.table, hf.held⟩
  · exact h.off g hg

omit [DecidableEq ι] in
/-- **The heap grows**, or there are too few frames for it. -/
theorem ends_growHeap [Nonempty ι] (h : HeldPages own s.pmaps held (s.notOurs off) s.vmm)
    (hheap : HeapOk off s.heapFrames) (n : Nat) :
    ends (forUp n fun _ => do
        let frame ← inVmm pmmAllocFrame
        modify fun s : Tasks ι => { s with heapFrames := frame :: s.heapFrames }) s
      (fun _ s' => HeapGrew own held off s s' n)
      fun e => e = noFrames ∧ s.vmm.free.length < n := by
  refine ends_forUp (fun i t => HeapGrew own held off s t i) ?_ fun i t hi ht => ?_
  · exact ⟨⟨rfl, rfl, rfl, rfl⟩, h, hheap, fun _ _ _ => rfl, [], rfl, rfl⟩
  · obtain ⟨⟨htask, hmapping, hlinks, hrecords⟩, hpages, hok, hsame, taken, htaken, hn⟩ := ht
    unfold inVmm
    rw [ends_bind, ends_zoom]
    by_cases hfree : t.vmm.free = []
    · rw [ends_of_stops (pmmAllocFrame_stops hfree), htaken, hfree, List.append_nil, hn]
      exact ⟨rfl, hi⟩
    · obtain ⟨f, rest, hcons⟩ := List.exists_cons_of_ne_nil hfree
      obtain ⟨htake, hloose, hkept⟩ := heldPages_take hpages hcons
      refine ends_of_wp ((wp_pmmAllocFrame hcons _).mpr ?_)
      rw [ends_modify]
      refine ⟨⟨htask, hmapping, hlinks, hrecords⟩, ?_, ⟨fun g hg => ?_, ?_⟩,
        fun k key hkey => (hkept k key hkey).trans (hsame k key hkey), taken ++ [f], ?_, ?_⟩
      · have hoff := heldPages_off htake hloose
        refine ⟨hoff.maps, hoff.nonzero, hoff.page, hoff.frame, hoff.once, fun g hg => hoff.off g ?_⟩
        rcases hg with hg | hg
        · rcases List.mem_cons.mp hg with rfl | hg
          · exact Or.inl rfl
          · exact Or.inr (Or.inl hg)
        · exact Or.inr (Or.inr hg)
      · rcases List.mem_cons.mp hg with rfl | hg
        · exact ⟨hloose.frame, hloose.nonzero, fun ho => hloose.off (Or.inr ho)⟩
        · exact hok.frame g hg
      · exact List.nodup_cons.mpr ⟨fun hin => hloose.off (Or.inl hin), hok.nodup⟩
      · rw [htaken, hcons, List.append_assoc]
        rfl
      · rw [List.length_append, hn]
        rfl

/-- **`task__add_mapping`**, and the fields of the record after it. -/
theorem ends_taskAddMapping [Nonempty ι] (h : HeldPages own s.pmaps held (s.notOurs off) s.vmm)
    (hheap : HeapOk off s.heapFrames) (self : ι) (heap : HeapAnswer) (record : TaskMapping) :
    ends (do
        let mapping ← taskAddMapping self heap
        modify fun s : Tasks ι => { s with mapping := Function.update s.mapping mapping record }) s
      (fun _ s' => ∃ s₁, HeapGrew own held off s s₁ heap.frames ∧
        s' = s₁.added self heap.block record)
      fun e => e = noFrames ∧ s.vmm.free.length < heap.frames := by
  unfold taskAddMapping allocateMapping
  rw [ends_bind, ends_bind, ends_bind]
  refine ends_mono (ends_growHeap h hheap heap.frames) (fun _ s₁ hs₁ => ?_) fun _ he => he
  rw [ends_bind, ends_modify]
  simp only [ends_pure, ends_modify, ends_bind]
  refine ⟨s₁, hs₁, ?_⟩
  unfold Tasks.added
  dsimp only
  rw [Function.update_idem]

end Heap

/-! ## 4. `task_mmap` -/

/-- The pages a request with `flags` gets: all of its range, or none. -/
def mappedPages (flags : TaskMmapFlags) (n : Nat) : Nat :=
  if flags &&& TASK_MMAP_ACCESS_READ ≠ 0 then n else 0

/-- **What `task_mmap` does** with a request for the range `target`, and what it answers. -/
inductive MmapDoes (own : ι → Uptr → Option (Nat × Nat)) (held : Holding ι) (off : Uptr → Prop)
    (s : Tasks ι) (self : ι) (target : Option (Uptr × Nat)) (flags : TaskMmapFlags)
    (heap : HeapAnswer) : Uptr → Tasks ι → Prop where
  | refused (ht : target = none) : MmapDoes own held off s self target flags heap 0 s
  | rolledBack {base : Uptr} {n i : Nat} {own' : ι → Uptr → Option (Nat × Nat)}
      {taken : List Uptr} {vmm : VmmState} (ht : target = some (base, n)) (hi : i < mappedPages flags n)
      (hfew : s.vmm.free.length = need s.pmaps s.vmm self (base.toNat / 4096) i)
      (hback : RolledBack s.pmaps held (s.notOurs off) s.vmm self (base.toNat / 4096) i own' vmm
        taken) : MmapDoes own held off s self target flags heap 0 { s with vmm }
  | mapped {base : Uptr} {n : Nat} {own' : ι → Uptr → Option (Nat × Nat)} {fr taken : List Uptr}
      {vmm : VmmState} {s₁ : Tasks ι} (ht : target = some (base, n))
      (hfr : fr.length = mappedPages flags n)
      (hfill : Filled s.pmaps held (s.notOurs off) s.vmm self (base.toNat / 4096) own' vmm fr taken)
      (hgrew : HeapGrew own' (holdRange held self (base.toNat / 4096) fr) off { s with vmm } s₁
        heap.frames) :
      MmapDoes own held off s self target flags heap base
        (s₁.added self heap.block ⟨base, flags.setWidth 64, BitVec.ofNat 64 n⟩)

/-- `pmm_alloc` has no frame for a table, or for the heap. -/
def MmapPanics (s : Tasks ι) (self : ι) (target : Option (Uptr × Nat)) (flags : TaskMmapFlags)
    (heap : HeapAnswer) : Prop :=
  ∃ base n, target = some (base, n) ∧
    ((∃ i, i < mappedPages flags n ∧
        need s.pmaps s.vmm self (base.toNat / 4096) i < s.vmm.free.length ∧
        s.vmm.free.length < need s.pmaps s.vmm self (base.toNat / 4096) (i + 1)) ∨
      (need s.pmaps s.vmm self (base.toNat / 4096) (mappedPages flags n) ≤ s.vmm.free.length ∧
        s.vmm.free.length <
          need s.pmaps s.vmm self (base.toNat / 4096) (mappedPages flags n) + heap.frames))

section Mmap

variable {own : ι → Uptr → Option (Nat × Nat)} {held : Holding ι} {off : Uptr → Prop}
  {list : ι → List Uptr} {s s' : Tasks ι} {self : ι} {addr base a : Uptr} {length : Usize}
  {flags : TaskMmapFlags} {heap : HeapAnswer} {n : Nat}

theorem readable_iff (v : Uptr) (n : Usize) :
    Readable ⟨v, flags.setWidth 64, n⟩ ↔ flags &&& TASK_MMAP_ACCESS_READ ≠ 0 := by
  unfold Readable
  rw [← BitVec.setWidth_and]
  refine not_congr ⟨fun h => ?_, fun h => by rw [h]; rfl⟩
  apply BitVec.eq_of_toNat_eq
  have hz := congrArg BitVec.toNat h
  rw [BitVec.toNat_setWidth, Nat.mod_eq_of_lt (by have := (flags &&& TASK_MMAP_ACCESS_READ).isLt; omega)]
    at hz
  exact hz

omit [DecidableEq ι] in
/-- No mapping holds a page of a range that overlaps none. -/
theorem unheld_of_apart (h : TasksInv own held off list s) {r : TaskMapping} (hr : RangeOk r)
    (hapart : ∀ m ∈ list self, RangesApart r (s.mapping m)) {key : Nat} (hkey : InRange r key) :
    held self key = none := by
  by_contra hheld
  obtain ⟨f, hf⟩ := Option.ne_none_iff_exists'.mp hheld
  obtain ⟨m, hm, -, hlo, hhi⟩ := h.owned self key f hf
  have ha := hapart m hm
  have hra := hr.aligned
  have hma := (h.range self m hm).aligned
  obtain ⟨hlo', hhi'⟩ := hkey
  unfold RangesApart at ha
  omega

/-- **`task_mmap`**: it refuses, maps, rolls back, or `pmm_alloc` panics. -/
theorem ends_taskMmap [Nonempty ι] (pages1gb : Bool) (h : TasksInv own held off list s) :
    ends (taskMmap pages1gb self addr length flags heap) s
      (MmapDoes own held off s self (mapTarget s self addr length flags) flags heap)
      fun e => e = noFrames ∧ MmapPanics s self (mapTarget s self addr length flags) flags heap := by
  have hrange : ∀ m ∈ s.mappings self, RangeOk (s.mapping m) := fun m hm =>
    h.range self m (inv_mappings h self ▸ hm)
  unfold taskMmap
  cases hround : taskRoundToPage length with
  | none =>
      rw [ends_pure]
      refine .refused ?_
      unfold mapTarget
      rw [hround]
      rfl
  | some l =>
      dsimp only
      rw [ends_bind, ends_get]
      cases hplace : taskMmapPlace s self addr l flags with
      | none =>
          rw [ends_pure]
          refine .refused ?_
          unfold mapTarget
          rw [hround, Option.bind_some, hplace]
          rfl
      | some base =>
          have ht : mapTarget s self addr length flags =
              some (base, (l / MM_VIRT_PAGE_SIZE).toNat) := by
            unfold mapTarget
            rw [hround, Option.bind_some, hplace]
            rfl
          obtain ⟨hok, hcount, hapart⟩ := mapTarget_some hrange ht (flags.setWidth 64)
          rw [inv_mappings h self] at hapart
          have hrecord : (⟨base, flags.setWidth 64, l / MM_VIRT_PAGE_SIZE⟩ : TaskMapping) =
              ⟨base, flags.setWidth 64, BitVec.ofNat 64 (l / MM_VIRT_PAGE_SIZE).toNat⟩ := by
            rw [BitVec.ofNat_toNat, BitVec.setWidth_eq]
          generalize hn : (l / MM_VIRT_PAGE_SIZE).toNat = n at *
          have hhigh := hok.high
          change base.toNat + 4096 * (BitVec.ofNat 64 n).toNat ≤ 140737471578112 at hhigh
          rw [hcount] at hhigh
          -- the pages first: they are filled, or given up again, or a table misses its frame
          have hpages : ends (if flags &&& TASK_MMAP_ACCESS_READ ≠ 0 then
                inVmm (mmapPages pages1gb (s.task self).pmap base flags n) else pure true) s
              (fun b t => if b then
                  ∃ own' fr taken vmm, t = { s with vmm } ∧ fr.length = mappedPages flags n ∧
                    Filled s.pmaps held (s.notOurs off) s.vmm self (base.toNat / 4096) own' vmm fr
                      taken
                else MmapDoes own held off s self (some (base, n)) flags heap 0 t)
              (fun e => e = noFrames ∧ MmapPanics s self (some (base, n)) flags heap) := by
            by_cases hread : flags &&& TASK_MMAP_ACCESS_READ ≠ 0
            · have hall : mappedPages flags n = n := if_pos hread
              rw [if_pos hread, inVmm, ends_zoom]
              have hnone : ∀ key, base.toNat / 4096 ≤ key → key < base.toNat / 4096 + n →
                  held self key = none := fun key hlo hhi =>
                unheld_of_apart h hok hapart ⟨hlo, by rw [hcount]; exact hhi⟩
              have hloop : ends (mmapPages pages1gb (s.pmaps self) base flags n) s.vmm _ _ :=
                ends_mmapPages pages1gb h.pages hok.aligned (by omega) hnone
              refine ends_mono hloop (fun b vmm hb => ?_) fun e he => ?_
              · cases b with
                | true =>
                    obtain ⟨own', fr, taken, hfr, hfill⟩ := hb
                    exact ⟨own', fr, taken, vmm, rfl, by rw [hfr, hall], hfill⟩
                | false =>
                    obtain ⟨i, own', taken, hi, hfew, hback⟩ := hb
                    exact .rolledBack rfl (by rw [hall]; exact hi) hfew hback
              · obtain ⟨he, i, hi, hlo, hhi⟩ := he
                exact ⟨he, base, n, rfl, Or.inl ⟨i, by rw [hall]; exact hi, hlo, hhi⟩⟩
            · rw [if_neg hread, ends_pure]
              have hzero : mappedPages flags n = 0 := if_neg hread
              exact ⟨own, [], [], s.vmm, rfl, by rw [hzero]; rfl, filled_nil h.pages⟩
          rw [ht, ends_bind]
          refine ends_mono hpages (fun b t hb => ?_) fun _ he => he
          cases b with
          | false =>
              rw [if_neg (by decide), ends_pure]
              exact hb
          | true =>
              obtain ⟨own', fr, taken, vmm, rfl, hfr, hfill⟩ := hb
              have hadd := ends_taskAddMapping (s := { s with vmm }) hfill.held h.heap self heap ⟨base, flags.setWidth 64, l / MM_VIRT_PAGE_SIZE⟩
              rw [ends_bind] at hadd
              rw [if_pos rfl, ends_bind]
              refine ends_mono hadd (fun mapping t₁ h₁ => ?_) fun e he => ?_
              · rw [ends_modify] at h₁
                obtain ⟨s₁, hgrew, heq⟩ := h₁
                rw [ends_bind, ends_modify, ends_pure]
                rw [heq, hrecord]
                exact .mapped rfl hfr hfill hgrew
              · obtain ⟨he, hlt⟩ := he
                have hlen := filled_length hfill.free hfill.cost
                rw [hfr] at hlen
                refine ⟨he, base, n, rfl, Or.inr ⟨by omega, ?_⟩⟩
                change vmm.free.length < heap.frames at hlt
                omega

/-- The record that `task_mmap` puts in front. -/
theorem inv_mapped [Nonempty ι] {own' : ι → Uptr → Option (Nat × Nat)} {fr : List Uptr}
    {vmm : VmmState} {s₁ : Tasks ι} (h : TasksInv own held off list s)
    (hfresh : heap.block ∉ s.records) (ht : mapTarget s self addr length flags = some (base, n))
    (hfr : fr.length = mappedPages flags n)
    (hgrew : HeapGrew own' (holdRange held self (base.toNat / 4096) fr) off { s with vmm } s₁
      heap.frames) :
    TasksInv own' (holdRange held self (base.toNat / 4096) fr) off
      (Function.update list self (heap.block :: list self))
      (s₁.added self heap.block ⟨base, flags.setWidth 64, BitVec.ofNat 64 n⟩) := by
  have hrange : ∀ m ∈ s.mappings self, RangeOk (s.mapping m) := fun m hm =>
    h.range self m (inv_mappings h self ▸ hm)
  obtain ⟨hok, hcount, hapart⟩ := mapTarget_some hrange ht (flags.setWidth 64)
  rw [inv_mappings h self] at hapart
  obtain ⟨htask, hmapping, hlinks, hrecords⟩ := hgrew.lists
  refine inv_added h ⟨htask, hmapping, hlinks, hrecords⟩ hgrew.pages hgrew.heap hfresh hok hapart
    (fun k key hout => ?_) fun hread key hkey => ?_
  · unfold holdRange
    refine if_neg fun hin => hout ⟨hin.1, ?_⟩
    rw [readable_iff]
    unfold mappedPages at hfr
    split at hfr
    · rename_i hread
      refine ⟨hread, hin.2.1, ?_⟩
      show key < base.toNat / 4096 + (BitVec.ofNat 64 n).toNat
      omega
    · omega
  · rw [readable_iff] at hread
    obtain ⟨hlo, hhi⟩ := hkey
    change base.toNat / 4096 ≤ key at hlo
    change key < base.toNat / 4096 + (BitVec.ofNat 64 n).toNat at hhi
    rw [hcount] at hhi
    have hall : mappedPages flags n = n := if_pos hread
    have hj : key - base.toNat / 4096 < fr.length := by omega
    have hget : holdRange held self (base.toNat / 4096) fr self
        (base.toNat / 4096 + (key - base.toNat / 4096)) = some fr[key - base.toNat / 4096] :=
      holdRange_get hj
    rw [Nat.add_sub_cancel' hlo] at hget
    rw [hget]
    exact Option.some_ne_none _

end Mmap

/-! ## 5. `task_munmap` -/

/-- `task_munmap` is asked for this mapping. -/
def Asked (m : TaskMapping) (addr : Uptr) (length : Usize) : Prop :=
  m.vaddr = addr ∧ taskRoundToPage length = some (m.pageCount * MM_VIRT_PAGE_SIZE)

/-- **What `task_munmap` does.** -/
inductive MunmapDoes (own : ι → Uptr → Option (Nat × Nat)) (held : Holding ι) (off : Uptr → Prop)
    (list : ι → List Uptr) (s : Tasks ι) (self : ι) (addr : Uptr) (length : Usize) (frames : Nat) :
    Tasks ι → Prop where
  | nothing (hnone : ∀ m ∈ list self, ¬ Asked (s.mapping m) addr length) :
      MunmapDoes own held off list s self addr length frames s
  | unmapped {m : Uptr} {fr : List Uptr} {vmm : VmmState} (hm : m ∈ list self)
      (hasked : Asked (s.mapping m) addr length)
      (hfr : fr.length = if Readable (s.mapping m) then (s.mapping m).pageCount.toNat else 0)
      (hgone : Released own s.pmaps held (s.notOurs off) s.vmm vmm self (addr.toNat / 4096) fr.length
        fr) :
      MunmapDoes own held off list s self addr length frames
        (Tasks.removed { s with vmm } self m frames)

section Munmap

variable {own : ι → Uptr → Option (Nat × Nat)} {held : Holding ι} {off : Uptr → Prop}
  {list : ι → List Uptr} {s s' : Tasks ι} {self : ι} {addr : Uptr} {length : Usize} {frames : Nat}
  {m : Uptr}

/-- The tests of `task_munmap` pass for a mapping that is asked for. -/
theorem asked_checks {r : TaskMapping} (hr : RangeOk r) (h : Asked r addr length) :
    length ≠ 0 ∧ addr ≠ 0 ∧ ¬ USER_STACK_TOP < addr ∧
      ¬ USER_STACK_TOP - addr < r.pageCount * MM_VIRT_PAGE_SIZE := by
  obtain ⟨rfl, hround⟩ := h
  have hlow := hr.low
  have hhigh := hr.high
  rw [show USER_STARTUP_BASE.toNat = 140737471578112 from rfl] at hhigh
  have hle : r.vaddr ≤ USER_STACK_TOP := by
    rw [BitVec.le_def, show USER_STACK_TOP.toNat = 140737488347136 from rfl]
    omega
  have hpages : (r.pageCount * MM_VIRT_PAGE_SIZE).toNat = 4096 * r.pageCount.toNat := by
    rw [BitVec.toNat_mul, show MM_VIRT_PAGE_SIZE.toNat = 4096 from rfl]
    omega
  refine ⟨fun h0 => ?_, fun h0 => ?_, ?_, ?_⟩
  · rw [h0] at hround
    cases hround
  · rw [h0] at hlow
    exact absurd hlow (by decide)
  · rw [BitVec.not_lt]
    exact hle
  · rw [BitVec.not_lt, BitVec.le_def, hpages, BitVec.toNat_sub_of_le hle,
      show USER_STACK_TOP.toNat = 140737488347136 from rfl]
    omega

theorem unmapMatches_iff {r : TaskMapping} {l : Usize} :
    unmapMatches r addr (addr + l) = true ↔ r.vaddr = addr ∧ l = r.pageCount * MM_VIRT_PAGE_SIZE := by
  unfold unmapMatches
  rw [Bool.and_eq_true, decide_eq_true_eq, decide_eq_true_eq]
  constructor
  · intro h
    obtain ⟨rfl, h⟩ := h
    exact ⟨rfl, (BitVec.add_right_inj r.vaddr).mp h⟩
  · intro h
    obtain ⟨rfl, rfl⟩ := h
    exact ⟨rfl, rfl⟩

omit [DecidableEq ι] in
/-- The frames of a stretch of held pages. -/
theorem heldFrames {k : ι} {key n : Nat} (h : ∀ j, j < n → held k (key + j) ≠ none) :
    ∃ fr : List Uptr, fr.length = n ∧ ∀ j (hj : j < fr.length), held k (key + j) = some fr[j] := by
  refine ⟨List.ofFn fun j : Fin n => (held k (key + j)).getD 0, List.length_ofFn, fun j hj => ?_⟩
  rw [List.length_ofFn] at hj
  obtain ⟨f, hf⟩ := Option.ne_none_iff_exists'.mp (h j hj)
  rw [List.getElem_ofFn, hf]
  rfl

/-- **`task_munmap` returns**, and gives up the mapping it was asked for. -/
theorem wp_taskMunmap [Nonempty ι] (h : TasksInv own held off list s) :
    wp (taskMunmap self addr length frames) s fun _ =>
      MunmapDoes own held off list s self addr length frames := by
  have hlist := inv_mappings h self
  unfold taskMunmap
  split
  · rename_i hz
    rw [wp_pure]
    refine .nothing fun m hm ha => ?_
    obtain ⟨h0, h0', -, -⟩ := asked_checks (h.range self m hm) ha
    rw [Bool.or_eq_true, decide_eq_true_eq, decide_eq_true_eq] at hz
    exact hz.elim h0 h0'
  · cases hround : taskRoundToPage length with
    | none =>
        rw [wp_pure]
        refine .nothing fun m hm ha => ?_
        rw [ha.2] at hround
        cases hround
    | some l =>
        have hasked : ∀ m, Asked (s.mapping m) addr length ↔
            (s.mapping m).vaddr = addr ∧ l = (s.mapping m).pageCount * MM_VIRT_PAGE_SIZE := by
          intro m
          unfold Asked
          rw [hround, Option.some.injEq]
        dsimp only
        split
        · rename_i htop
          rw [wp_pure]
          exact .nothing fun m hm ha => (asked_checks (h.range self m hm) ha).2.2.1 htop
        · split
          · rename_i hlen
            rw [wp_pure]
            refine .nothing fun m hm ha => (asked_checks (h.range self m hm) ha).2.2.2 ?_
            rw [← ((hasked m).mp ha).2]
            exact hlen
          · rw [wp_bind, wp_get, hlist]
            cases hfind : (list self).find? fun m => unmapMatches (s.mapping m) addr (addr + l) with
            | none =>
                rw [wp_pure]
                refine .nothing fun m hm ha => List.find?_eq_none.mp hfind m hm ?_
                exact unmapMatches_iff.mpr ((hasked m).mp ha)
            | some m =>
                have hm : m ∈ list self := List.mem_of_find?_eq_some hfind
                have hmatch := List.find?_some
                  (p := fun m => unmapMatches (s.mapping m) addr (addr + l)) hfind
                have ha : Asked (s.mapping m) addr length :=
                  (hasked m).mpr (unmapMatches_iff.mp hmatch)
                obtain ⟨hva, -⟩ := ha
                have hr := h.range self m hm
                -- the pages first
                have hpages : wp (if (s.mapping m).flags &&& TASK_MMAP_ACCESS_READ.setWidth 64 ≠ 0
                    then do
                      inVmm (forUp (s.mapping m).pageCount.toNat fun i =>
                        releasePage (s.task self).pmap (vaddrOf (s.mapping m).vaddr i))
                      inVmm (vmmShootdownRange (s.mapping m).vaddr (s.mapping m).pageCount)
                    else pure ()) s fun _ t => ∃ fr vmm, t = { s with vmm } ∧
                      fr.length =
                        (if Readable (s.mapping m) then (s.mapping m).pageCount.toNat else 0) ∧
                      Released own s.pmaps held (s.notOurs off) s.vmm vmm self (addr.toNat / 4096)
                        fr.length fr := by
                  by_cases hread : (s.mapping m).flags &&& TASK_MMAP_ACCESS_READ.setWidth 64 ≠ 0
                  · obtain ⟨fr, hfr, hget⟩ := heldFrames (n := (s.mapping m).pageCount.toNat)
                      fun j hj => h.backed self m hm hread ((s.mapping m).vaddr.toNat / 4096 + j)
                        ⟨by omega, by omega⟩
                    have hhigh := hr.high
                    rw [show USER_STARTUP_BASE.toNat = 140737471578112 from rfl] at hhigh
                    have hloop := wp_releaseLoop h.pages hr.aligned (by omega) hget
                    rw [if_pos hread, if_pos (show Readable (s.mapping m) from hread), wp_bind, inVmm,
                      wp_zoom, ← hfr]
                    refine wp_mono hloop fun _ vmm hrel => ?_
                    rw [inVmm, wp_zoom, vmmShootdownRange, wp_pure, ← hva]
                    exact ⟨fr, vmm, rfl, rfl, hrel⟩
                  · rw [if_neg hread, if_neg (show ¬ Readable (s.mapping m) from hread), wp_pure]
                    exact ⟨[], s.vmm, rfl, rfl, released_nil h.pages⟩
                dsimp only
                rw [wp_bind]
                refine wp_mono hpages fun _ t ht => ?_
                obtain ⟨fr, vmm, rfl, hfr, hrel⟩ := ht
                unfold taskDelMapping deallocateMapping
                rw [wp_bind, wp_modify, wp_modify]
                exact .unmapped hm ((hasked m).mpr (unmapMatches_iff.mp hmatch)) hfr hrel

end Munmap

end Slightx
