/-
  File:      Slightx/Proc/TaskRuns.lean
  Subject:   Runs of `task_mmap` and `task_munmap` over several tasks.

  * `TasksReady` -- where a run starts: page maps side by side, and no mappings yet;
  * `inv_mmapRun` -- `TasksInv` holds wherever a run gets;
  * `mappings_sound` -- hence the mappings are lists of disjoint ranges, their pages have frames of
    their own, and `task_munmap` returns;
  * `mmapClean_iff` -- for which numbers of free frames `task_mmap` answers a request without
    a trace of it, if it does not succeed
-/
import Slightx.Proc.TaskInv

namespace Slightx

open Lib

variable {ι : Type} [DecidableEq ι]

/-! ## 1. The invariant of a run -/

/-- Tasks before their first call. -/
structure TasksReady (own : ι → Uptr → Option (Nat × Nat)) (off : Uptr → Prop) (s : Tasks ι) :
    Prop where
  maps : UserMaps own s.pmaps s.vmm
  nonzero : ∀ f ∈ s.vmm.free, f ≠ 0
  empty : ∀ k, (s.task k).mappings = none
  heap : HeapOk off s.heapFrames
  off : ∀ f, s.notOurs off f → f ∉ s.vmm.free ∧ ∀ k, own k f = none

/-- The start of a run: page maps that share no table of the user half, and no mappings. -/
def TasksLoaded (s : Tasks ι) : Prop := ∃ own, TasksReady own (fun _ => False) s

section Runs

variable {own : ι → Uptr → Option (Nat × Nat)} {held : Holding ι} {off : Uptr → Prop}
  {list : ι → List Uptr} {s₀ s s' : Tasks ι} {pages1gb : Bool} {c : MmapCall ι} {a : Uptr}

omit [DecidableEq ι] in
theorem inv_ready (h : TasksReady own off s) :
    TasksInv own (fun _ _ => none) off (fun _ => []) s := by
  have hnone : ∀ {α : Type} {a : α} {P : Prop}, none = some a → P := fun h => by cases h
  refine ⟨⟨h.maps, h.nonzero, fun _ _ _ => hnone, fun _ _ _ => hnone, fun _ _ _ _ _ => hnone,
      fun f hf => ⟨(h.off f hf).1, (h.off f hf).2, fun _ _ he => hnone he⟩⟩, h.heap, fun k => ?_,
    fun _ _ hm => absurd hm List.not_mem_nil, fun _ _ _ hm => absurd hm List.not_mem_nil,
    fun _ _ hm => absurd hm List.not_mem_nil, fun _ _ _ hm => absurd hm List.not_mem_nil,
    fun _ _ hm => absurd hm List.not_mem_nil, fun _ _ _ => hnone⟩
  rw [h.empty k]
  exact dlist_nil

omit [DecidableEq ι] in
/-- Some of the frames are not free any more, or come in another order. -/
theorem heldPages_fewer {pmap : ι → PageMap} {vmm : VmmState} {free : List Uptr}
    (h : HeldPages own pmap held off vmm) (hfree : free.Subperm vmm.free) :
    HeldPages own pmap held off { vmm with free } := by
  have hsub : ∀ f ∈ free, f ∈ vmm.free := fun f hf => hfree.subset hf
  have hmaps : ι → UserMaps own pmap { vmm with free } := fun k₀ => by
    obtain ⟨l, hperm, hl⟩ := hfree
    refine userMaps_free h.maps (fun f hf => ⟨((h.maps.page k₀).inv.free f (hsub f hf)).1, fun k =>
      ((h.maps.page k).inv.free f (hsub f hf)).2⟩) ?_
    exact hperm.nodup_iff.mp ((h.maps.page k₀).inv.nodup.sublist hl)
  refine ⟨⟨fun k => (hmaps k).page k, fun k => (hmaps k).small k, h.maps.apart⟩,
    fun f hf => h.nonzero f (hsub f hf), h.page, fun k key f hf => ?_, h.once, fun f hf => ?_⟩
  · obtain ⟨hok, h0, hn, ht⟩ := h.frame k key f hf
    exact ⟨hok, h0, fun hin => hn (hsub f hin), ht⟩
  · obtain ⟨hn, ht, hh⟩ := h.off f hf
    exact ⟨fun hin => hn (hsub f hin), ht, hh⟩

/-- What `task_mmap` does keeps the invariant. -/
theorem inv_mmapDoes [Nonempty ι] {self : ι} {addr : Uptr} {length : Usize}
    {flags : TaskMmapFlags} {heap : HeapAnswer} (h : TasksInv own held off list s)
    (hfresh : heap.block ∉ s.records)
    (hd : MmapDoes own held off s self (mapTarget s self addr length flags) flags heap a s') :
    ∃ own' held' list', TasksInv own' held' off list' s' := by
  cases hd with
  | refused _ => exact ⟨own, held, list, h⟩
  | @rolledBack base n i own' taken vmm _ _ _ hback =>
      exact ⟨own', held, list, hback.held, h.heap, h.dlist, h.record, h.one, h.range, h.apart,
        h.backed, h.owned⟩
  | mapped ht hfr _ hgrew => exact ⟨_, _, _, inv_mapped h hfresh ht hfr hgrew⟩

/-- What `task_munmap` does keeps the invariant. -/
theorem inv_munmapDoes [Nonempty ι] {self : ι} {addr : Uptr} {length : Usize} {frames : Nat}
    (h : TasksInv own held off list s)
    (hd : MunmapDoes own held off list s self addr length frames s') :
    ∃ held' list', TasksInv own held' off list' s' := by
  cases hd with
  | nothing _ => exact ⟨held, list, h⟩
  | @unmapped m fr vmm hm hasked hfr hgone =>
      obtain ⟨rfl, -⟩ := hasked
      refine ⟨_, _, inv_removed h hm hgone.held frames (fun k key hout => ?_)
        fun hread key hkey => ?_⟩
      · unfold unhold
        refine if_neg fun hin => hout ⟨hin.1, ?_⟩
        rw [hfr] at hin
        split at hin
        · rename_i hread
          exact ⟨hread, hin.2⟩
        · omega
      · unfold unhold
        rw [hfr, if_pos hread]
        exact if_pos ⟨rfl, hkey⟩

/-- **One call.** -/
theorem inv_mmapCall (h : TasksInv own held off list s) (hfresh : c.Fresh s)
    (hrun : c.run pages1gb s = .ok (a, s')) :
    ∃ own' held' list', TasksInv own' held' off list' s' := by
  cases c with
  | mmap self addr length flags heap =>
      have : Nonempty ι := ⟨self⟩
      exact inv_mmapDoes h hfresh (ends_ok (ends_taskMmap pages1gb h) hrun)
  | munmap self addr length frames =>
      have : Nonempty ι := ⟨self⟩
      have hw : wp (MmapCall.run pages1gb (.munmap self addr length frames)) s fun _ =>
          MunmapDoes own held off list s self addr length frames := by
        unfold MmapCall.run
        rw [wp_bind]
        refine wp_mono (wp_taskMunmap h) fun _ t ht => ?_
        rw [wp_pure]
        exact ht
      obtain ⟨held', list', h'⟩ := inv_munmapDoes h ((wp_of_eq hrun).mp hw)
      exact ⟨own, held', list', h'⟩

/-- **A whole run.** -/
theorem inv_mmapRun (h₀ : TasksReady own off s₀) (h : MmapRun pages1gb s₀ s) :
    ∃ own' held list, TasksInv own' held off list s := by
  induction h with
  | start => exact ⟨own, _, _, inv_ready h₀⟩
  | call c _ hfresh hrun ih =>
      obtain ⟨own', held, list, ih⟩ := ih
      exact inv_mmapCall ih hfresh hrun
  | others free _ hfree ih =>
      obtain ⟨own', held, list, ih⟩ := ih
      exact ⟨own', held, list, heldPages_fewer ih.pages hfree, ih.heap, ih.dlist, ih.record, ih.one,
        ih.range, ih.apart, ih.backed, ih.owned⟩

end Runs

/-! ## 2. What the mappings are -/

/-- **Lists of disjoint ranges, with frames of their own.** -/
structure MappingsSound (s : Tasks ι) : Prop where
  dlist : ∀ k, DList s.links (s.task k).mappings (s.mappings k).getLast? (s.mappings k)
  one : ∀ k k' m, m ∈ s.mappings k → m ∈ s.mappings k' → k = k'
  range : ∀ k, ∀ m ∈ s.mappings k, RangeOk (s.mapping m)
  apart : ∀ k m m', m ∈ s.mappings k → m' ∈ s.mappings k → m ≠ m' →
    RangesApart (s.mapping m) (s.mapping m')
  /-- every page of a READ mapping goes to a frame that is not free -/
  backed : ∀ k, ∀ m ∈ s.mappings k, Readable (s.mapping m) → ∀ key, InRange (s.mapping m) key →
    ∃ f, FrameOk f ∧ f ∉ s.vmm.free ∧
      userPage s.vmm.mem (s.task k).pmap key = some (f.toNat / 4096)
  /-- and to no other such page's -/
  once : ∀ k m key k' m' key', m ∈ s.mappings k → Readable (s.mapping m) →
    InRange (s.mapping m) key → m' ∈ s.mappings k' → Readable (s.mapping m') →
    InRange (s.mapping m') key' →
    userPage s.vmm.mem (s.task k).pmap key = userPage s.vmm.mem (s.task k').pmap key' →
    k = k' ∧ m = m' ∧ key = key'
  /-- no frame was freed twice -/
  free : s.vmm.free.Nodup

section Sound

variable {own : ι → Uptr → Option (Nat × Nat)} {held : Holding ι} {off : Uptr → Prop}
  {list : ι → List Uptr} {s₀ s : Tasks ι}

omit [DecidableEq ι] in
theorem sound_of_inv [Nonempty ι] (h : TasksInv own held off list s) : MappingsSound s := by
  have hlist := inv_mappings h
  have hsome : ∀ k m key, m ∈ list k → Readable (s.mapping m) → InRange (s.mapping m) key →
      ∃ f, held k key = some f := fun k m key hm hread hkey =>
    Option.ne_none_iff_exists'.mp (h.backed k m hm hread key hkey)
  obtain ⟨k₀⟩ := ‹Nonempty ι›
  refine ⟨fun k => ?_, fun k k' m hm hm' => ?_, fun k m hm => ?_, fun k m m' hm hm' => ?_,
    fun k m hm hread key hkey => ?_, fun k m key k' m' key' hm hread hkey hm' hread' hkey' he => ?_,
    (h.pages.maps.page k₀).inv.nodup⟩
  · rw [hlist k]
    exact h.dlist k
  · rw [hlist] at hm hm'
    exact h.one k k' m hm hm'
  · rw [hlist] at hm
    exact h.range k m hm
  · rw [hlist] at hm hm'
    exact h.apart k m m' hm hm'
  · rw [hlist] at hm
    obtain ⟨f, hf⟩ := hsome k m key hm hread hkey
    obtain ⟨hok, -, hfree, -⟩ := h.pages.frame k key f hf
    exact ⟨f, hok, hfree, (h.pages.page k key f hf).2⟩
  · rw [hlist] at hm hm'
    obtain ⟨f, hf⟩ := hsome k m key hm hread hkey
    obtain ⟨g, hg⟩ := hsome k' m' key' hm' hread' hkey'
    have hfp := (h.pages.page k key f hf).2
    have hgp := (h.pages.page k' key' g hg).2
    have hfa := (h.pages.frame k key f hf).1.aligned
    have hga := (h.pages.frame k' key' g hg).1.aligned
    -- two frames with one page frame number are one
    have hfg : f = g := by
      have hnum : some (f.toNat / 4096) = some (g.toNat / 4096) := hfp.symm.trans (he.trans hgp)
      have hdiv := Option.some.inj hnum
      apply BitVec.eq_of_toNat_eq
      omega
    obtain ⟨rfl, rfl⟩ := h.pages.once k key k' key' f hf (hfg ▸ hg)
    refine ⟨rfl, ?_, rfl⟩
    by_contra hne
    have hapart := h.apart k m m' hm hm' hne
    have hma := (h.range k m hm).aligned
    have hma' := (h.range k m' hm').aligned
    obtain ⟨hlo, hhi⟩ := hkey
    obtain ⟨hlo', hhi'⟩ := hkey'
    unfold RangesApart at hapart
    omega

/-- **Mappings stay sound.** In every state of a run the mappings are sound, `task_munmap` returns
    and leaves them so, and `task_mmap` does unless `pmm_alloc` has no frame. -/
theorem mappings_sound [Nonempty ι] (pages1gb : Bool) (h₀ : TasksLoaded s₀)
    (hrun : MmapRun pages1gb s₀ s) :
    MappingsSound s ∧
      (∀ self addr length frames, wp (taskMunmap self addr length frames) s fun _ s' =>
        MappingsSound s') ∧
      ∀ self addr length flags heap, heap.block ∉ s.records →
        ends (taskMmap pages1gb self addr length flags heap) s (fun _ s' => MappingsSound s')
          fun e => e = noFrames := by
  obtain ⟨own, h₀⟩ := h₀
  obtain ⟨own', held, list, h⟩ := inv_mmapRun h₀ hrun
  refine ⟨sound_of_inv h, fun self addr length frames => ?_,
    fun self addr length flags heap hfresh => ?_⟩
  · refine wp_mono (wp_taskMunmap h) fun _ s' hd => ?_
    obtain ⟨held', list', h'⟩ := inv_munmapDoes h hd
    exact sound_of_inv h'
  · refine ends_mono (ends_taskMmap pages1gb h) (fun _ s' hd => ?_) fun e he => he.1
    obtain ⟨own'', held', list', h'⟩ := inv_mmapDoes h hfresh hd
    exact sound_of_inv h'

end Sound

/-- Two tasks with empty directories. -/
def twoTasks (free : List Uptr) : Tasks Bool where
  vmm := { mem := fun _ => 0, free }
  task := fun k => { pmap := ⟨.PML4, if k then 0x1000 else 0x2000⟩, mappings := none }
  mapping := fun _ => ⟨0, 0, 0⟩
  links := fun _ => ⟨none, none⟩
  records := []
  heapFrames := []

theorem twoTasks_loaded {free : List Uptr} (hnd : free.Nodup)
    (hfree : ∀ f ∈ free, FrameOk f ∧ f ≠ 0 ∧ f ≠ 0x1000 ∧ f ≠ 0x2000) :
    TasksLoaded (twoTasks free) := by
  have hempty : ∀ k, EmptyMap ((twoTasks free).pmaps k) (twoTasks free).vmm := by
    intro k
    refine ⟨Or.inl rfl, ?_, fun i _ => load64_zero _, fun f hf => ?_, hnd⟩
    · cases k
      · exact ⟨by simp [twoTasks], by simp [twoTasks]⟩
      · exact ⟨by simp [twoTasks], by simp [twoTasks]⟩
    · obtain ⟨hok, -, h1, h2⟩ := hfree f hf
      cases k
      · exact ⟨hok, h2⟩
      · exact ⟨hok, h1⟩
  refine ⟨_, userMaps_empty hempty fun k k' hne => ?_, fun f hf => (hfree f hf).2.1, fun _ => rfl,
    ⟨fun f hf => absurd hf List.not_mem_nil, List.nodup_nil⟩, fun f hf => ?_⟩
  · cases k
    · cases k'
      · exact absurd rfl hne
      · simp [twoTasks]
    · cases k'
      · simp [twoTasks]
      · exact absurd rfl hne
  · rcases hf with hf | hf
    · exact absurd hf List.not_mem_nil
    · exact hf.elim

theorem frames_loaded {n : Nat} (hn : n ≤ 9) :
    TasksLoaded (twoTasks ((List.range n).map fun i => BitVec.ofNat 64 (0x3000 + 0x1000 * i))) := by
  refine twoTasks_loaded ?_ fun f hf => ?_
  · refine (List.nodup_map_iff_inj_on List.nodup_range).mpr fun i hi j hj he => ?_
    rw [List.mem_range] at hi hj
    have := congrArg BitVec.toNat he
    simp only [BitVec.toNat_ofNat] at this
    omega
  · obtain ⟨i, hi, rfl⟩ := List.mem_map.mp hf
    rw [List.mem_range] at hi
    have hto : (BitVec.ofNat 64 (0x3000 + 0x1000 * i)).toNat = 0x3000 + 0x1000 * i :=
      ofNat_toNat_lt (by omega)
    have hne : ∀ c : Uptr, c.toNat < 0x3000 → BitVec.ofNat 64 (0x3000 + 0x1000 * i) ≠ c := by
      intro c hc he
      rw [← he] at hc
      omega
    exact ⟨⟨by omega, by omega⟩, hne _ (by decide), hne _ (by decide), hne _ (by decide)⟩

/-- A page that can be read, at the same address in both tasks. -/
def mapsPage (k : Bool) (heap : HeapAnswer) : Prog Fault (Tasks Bool) Uptr :=
  taskMmap true k 0x10000000 4096 (TASK_MMAP_FIXED ||| TASK_MMAP_ACCESS_READ) heap

def unmapsPage (k : Bool) : Prog Fault (Tasks Bool) Unit := taskMunmap k 0x10000000 4096 0

/-- The lists of the two tasks, the frames of their pages, and how many frames are free. -/
def shown (s : Tasks Bool) : (List Uptr × List Uptr) × (Option Nat × Option Nat) × Nat :=
  ((s.mappings false, s.mappings true),
    (userPage s.vmm.mem (s.task false).pmap 0x10000, userPage s.vmm.mem (s.task true).pmap 0x10000),
    s.vmm.free.length)

/-- Both tasks map a page, and the first gives it back: the second keeps its own. -/
theorem mappings_sound_twoTasks : ∃ s₀ s₁ s₂ s₃ : Tasks Bool, TasksLoaded s₀ ∧
    mapsPage false ⟨0xA00, 0⟩ s₀ = .ok (0x10000000, s₁) ∧
    mapsPage true ⟨0xB00, 0⟩ s₁ = .ok (0x10000000, s₂) ∧ unmapsPage false s₂ = .ok ((), s₃) ∧
    shown s₂ = (([0xA00], [0xB00]), (some 3, some 7), 1) ∧ MappingsSound s₂ ∧
    shown s₃ = (([], [0xB00]), (none, some 7), 2) ∧ MappingsSound s₃ := by
  let s₀ := twoTasks ((List.range 9).map fun i => BitVec.ofNat 64 (0x3000 + 0x1000 * i))
  have hfirst : wp (mapsPage false ⟨0xA00, 0⟩) s₀
      fun a (s : Tasks Bool) => (a, s.records) = (0x10000000, [0xA00]) :=
    wp_computed (fun a (s : Tasks Bool) => (a, s.records)) (by decide +kernel)
  have hsecond : wp (mapsPage false ⟨0xA00, 0⟩ >>= fun _ => mapsPage true ⟨0xB00, 0⟩) s₀
      fun a s => (a, shown s) = (0x10000000, ([0xA00], [0xB00]), (some 3, some 7), 1) :=
    wp_computed (fun a s => (a, shown s)) (by decide +kernel)
  have hthird : wp (mapsPage false ⟨0xA00, 0⟩ >>= fun _ => mapsPage true ⟨0xB00, 0⟩ >>= fun _ =>
      unmapsPage false) s₀ fun _ s => shown s = (([], [0xB00]), (none, some 7), 2) :=
    wp_computed (fun _ s => shown s) (by decide +kernel)
  rw [wp_bind] at hsecond hthird
  obtain ⟨a₁, s₁, hrun₁, hs₁, hw₂, hw₃⟩ := wp_and hfirst (wp_and hsecond hthird)
  rw [wp_bind] at hw₃
  obtain ⟨a₂, s₂, hrun₂, hs₂, _, s₃, hrun₃, hs₃⟩ := wp_and hw₂ hw₃
  obtain ⟨rfl, hrecords⟩ := Prod.mk.inj hs₁
  obtain ⟨rfl, hshown⟩ := Prod.mk.inj hs₂
  have hloaded : TasksLoaded s₀ := frames_loaded (by decide)
  have hunmaps : (MmapCall.munmap false 0x10000000 4096 0).run true s₂ = .ok (0, s₃) := by
    show (unmapsPage false s₂ >>= fun p => _) = _
    rw [hrun₃]
    rfl
  have hreach₂ : MmapRun true s₀ s₂ :=
    .call (.mmap true _ _ _ _) (.call (.mmap false _ _ _ _) .start List.not_mem_nil hrun₁)
      (by show (0xB00 : Uptr) ∉ s₁.records; rw [hrecords]; decide) hrun₂
  exact ⟨s₀, s₁, s₂, s₃, hloaded, hrun₁, hrun₂, hrun₃, hshown,
    (mappings_sound true hloaded hreach₂).1, hs₃,
    (mappings_sound true hloaded (.call (.munmap false _ _ 0) hreach₂ trivial hunmaps)).1⟩

/-! ## 3. Requests without a trace -/

/-- The frame is a table on the way to some user page of the page map. -/
def TableOf (m : Mem) (pmap : PageMap) (f : Uptr) : Prop :=
  ∃ key M g, M ≠ 0 ∧ Reach 512 pageKind (pteAt m) key pmap.level.num pmap.directory M f g

/-- The state after a request that left no trace: the lists, the user pages and the free frames are
    as they were, but for frames that are tables now. -/
structure Untouched (s s' : Tasks ι) (k : ι) : Prop where
  lists : SameLists s s'
  pages : ∀ k' key, key < userPages →
    userPage s'.vmm.mem (s.pmaps k') key = userPage s.vmm.mem (s.pmaps k') key
  frames : ∃ tables, s.vmm.free.Perm (tables ++ s'.vmm.free) ∧
    ∀ f ∈ tables, TableOf s'.vmm.mem (s.pmaps k) f

/-- `task_mmap` succeeds, or answers `NULL` and leaves no trace. -/
def MmapClean (pages1gb : Bool) (s : Tasks ι) (self : ι) (addr : Uptr) (length : Usize)
    (flags : TaskMmapFlags) (heap : HeapAnswer) : Prop :=
  wp (taskMmap pages1gb self addr length flags heap) s fun a s' => a ≠ 0 ∨ Untouched s s' self

/-- The frames are enough for the whole request; or they are used up exactly by the first pages of
    the range, with their tables, and these pages went nowhere before. -/
def FramesFit (s : Tasks ι) (self : ι) (addr : Uptr) (length : Usize) (flags : TaskMmapFlags)
    (heap : HeapAnswer) : Prop :=
  ∀ base n, mapTarget s self addr length flags = some (base, n) →
    need s.pmaps s.vmm self (base.toNat / 4096) (mappedPages flags n) + heap.frames ≤
        s.vmm.free.length ∨
      ∃ i, i < mappedPages flags n ∧
        s.vmm.free.length = need s.pmaps s.vmm self (base.toNat / 4096) i ∧
        ∀ j, j < i → userPage s.vmm.mem (s.pmaps self) (base.toNat / 4096 + j) = none

section Clean

variable {own : ι → Uptr → Option (Nat × Nat)} {held : Holding ι} {off : Uptr → Prop}
  {list : ι → List Uptr} {s₀ s s' : Tasks ι} {pages1gb : Bool} {self : ι} {addr a : Uptr}
  {length : Usize} {flags : TaskMmapFlags} {heap : HeapAnswer}

omit [DecidableEq ι] in
theorem need_lt (s : Tasks ι) (self : ι) (key : Nat) {i j : Nat} (h : i < j) :
    need s.pmaps s.vmm self key i < need s.pmaps s.vmm self key j :=
  rangeFrames_lt h

omit [DecidableEq ι] in
theorem need_le (s : Tasks ι) (self : ι) (key : Nat) {i j : Nat} (h : i ≤ j) :
    need s.pmaps s.vmm self key i ≤ need s.pmaps s.vmm self key j := by
  rcases Nat.lt_or_eq_of_le h with hlt | rfl
  · exact Nat.le_of_lt (need_lt s self key hlt)
  · exact Nat.le_refl _

omit [DecidableEq ι] in
/-- Only one number of pages uses up the free frames. -/
theorem need_inj {key i j : Nat}
    (h : need s.pmaps s.vmm self key i = need s.pmaps s.vmm self key j) : i = j := by
  rcases Nat.lt_trichotomy i j with hlt | heq | hlt
  · exact absurd h (Nat.ne_of_lt (need_lt s self key hlt))
  · exact heq
  · exact absurd h.symm (Nat.ne_of_lt (need_lt s self key hlt))

omit [DecidableEq ι] in
/-- Where `pmm_alloc` panics, the frames do not fit. -/
theorem not_panics (h : FramesFit s self addr length flags heap) :
    ¬ MmapPanics s self (mapTarget s self addr length flags) flags heap := by
  intro hp
  obtain ⟨base, n, ht, hp⟩ := hp
  rcases h base n ht with hall | ⟨i, hi, hfew, -⟩
  · rcases hp with ⟨j, hj, -, hlt⟩ | ⟨-, hlt⟩
    · have hle := need_le s self (base.toNat / 4096) (show j + 1 ≤ mappedPages flags n from hj)
      omega
    · omega
  · rcases hp with ⟨j, hj, hlo, hhi⟩ | ⟨hle, -⟩
    · rw [hfew] at hlo hhi
      have hji : j < i := by
        by_contra hge
        exact absurd hlo (Nat.not_lt.mpr (need_le s self _ (Nat.not_lt.mp hge)))
      exact absurd hhi (Nat.not_lt.mpr (need_le s self _ hji))
    · rw [hfew] at hle
      exact absurd hle (Nat.not_le.mpr (need_lt s self _ hi))

omit [DecidableEq ι] in
/-- The pages of a range are user pages. -/
theorem target_pages (h : TasksInv own held off list s) {base : Uptr} {n j : Nat}
    (ht : mapTarget s self addr length flags = some (base, n)) :
    base ≠ 0 ∧ (j < n → base.toNat / 4096 + j < userPages) := by
  obtain ⟨hok, hcount, -⟩ := mapTarget_some
    (fun m hm => h.range self m (inv_mappings h self ▸ hm)) ht 0
  have hlow : 4096 ≤ base.toNat := hok.low
  have hhigh : base.toNat + 4096 * (BitVec.ofNat 64 n).toNat ≤ 140737471578112 := hok.high
  refine ⟨fun h0 => ?_, fun hj => ?_⟩
  · rw [h0] at hlow
    exact absurd hlow (by decide)
  · unfold userPages
    omega

omit [DecidableEq ι] in
/-- What was rolled back leaves no trace, if the pages went nowhere before. -/
theorem untouched_of_rolledBack {own' : ι → Uptr → Option (Nat × Nat)} {key i : Nat}
    {taken : List Uptr} {vmm : VmmState}
    (hback : RolledBack s.pmaps held (s.notOurs off) s.vmm self key i own' vmm taken)
    (hnone : ∀ j, j < i → userPage s.vmm.mem (s.pmaps self) (key + j) = none) :
    Untouched s { s with vmm } self := by
  refine ⟨⟨rfl, rfl, rfl, rfl⟩, fun k page hpage => ?_, taken, hback.free, fun f hf => ?_⟩
  · by_cases hin : k = self ∧ key ≤ page ∧ page < key + i
    · obtain ⟨rfl, hlo, hhi⟩ := hin
      obtain ⟨j, rfl⟩ := Nat.exists_eq_add_of_le hlo
      rw [hnone j (by omega)]
      exact hback.gone j (by omega)
    · exact hback.pages k page hpage hin
  · obtain ⟨page, M, hM, -, g, hreach⟩ := hback.stage f hf
    exact ⟨page, M, g, hM, hreach⟩

/-- **When a request leaves no trace.** -/
theorem mmapClean_iff [Nonempty ι] (pages1gb : Bool) (h : TasksInv own held off list s) :
    MmapClean pages1gb s self addr length flags heap ↔
      FramesFit s self addr length flags heap := by
  have hends : ends (taskMmap pages1gb self addr length flags heap) s _ _ :=
    ends_taskMmap pages1gb h
  constructor
  · intro hclean base n ht
    obtain ⟨a, s', hok, hclean⟩ := hclean
    have hd := ends_ok hends hok
    rw [ht] at hd
    cases hd with
    | refused hn => cases hn
    | @rolledBack _ _ i own' taken vmm he hi hfew hback =>
        cases he
        refine Or.inr ⟨i, hi, hfew, fun j hj => ?_⟩
        rcases hclean with h0 | hun
        · exact absurd rfl h0
        · have hle : mappedPages flags n ≤ n := by
            unfold mappedPages
            split <;> omega
          have hpage := (target_pages h ht).2 (show j < n by omega)
          rw [← hun.pages self _ hpage]
          exact hback.gone j hj
    | @mapped _ _ own' fr taken vmm s₁ he hfr hfill hgrew =>
        cases he
        have hlen := filled_length hfill.free hfill.cost
        obtain ⟨more, hmore, hn⟩ := hgrew.taken
        change vmm.free = more ++ s₁.vmm.free at hmore
        rw [hfr, hmore, List.length_append, hn] at hlen
        exact Or.inl (by omega)
  · intro hfit
    have hret := wp_of_ends (ends_mono hends (fun _ _ hd => hd) fun e he =>
      not_panics hfit he.2)
    refine wp_mono hret fun a s' hd => ?_
    cases ht : mapTarget s self addr length flags with
    | none =>
        rw [ht] at hd
        cases hd with
        | refused _ =>
            refine Or.inr ⟨⟨rfl, rfl, rfl, rfl⟩, fun _ _ _ => rfl, [], List.Perm.refl _, ?_⟩
            exact fun f hf => absurd hf List.not_mem_nil
        | rolledBack he _ _ _ => cases he
        | mapped he _ _ _ => cases he
    | some target =>
        obtain ⟨base, n⟩ := target
        rw [ht] at hd
        cases hd with
        | refused he => cases he
        | @rolledBack _ _ i own' taken vmm he hi hfew hback =>
            cases he
            refine Or.inr (untouched_of_rolledBack hback ?_)
            rcases hfit base n ht with hall | ⟨i', -, hfew', hnone⟩
            · rw [hfew] at hall
              have hlt := need_lt s self (base.toNat / 4096) hi
              omega
            · obtain rfl : i = i' := need_inj (hfew.symm.trans hfew')
              exact hnone
        | @mapped _ _ own' fr taken vmm s₁ he hfr hfill hgrew =>
            cases he
            exact Or.inl (target_pages (j := 0) h ht).1

/-- **Requests without a trace.** In every state of a run `task_mmap` succeeds, or answers `NULL`
    and leaves no trace, exactly if the frames fit. -/
theorem mmap_clean_iff_fit [Nonempty ι] (pages1gb : Bool) (h₀ : TasksLoaded s₀)
    (hrun : MmapRun pages1gb s₀ s) (self : ι) (addr : Uptr) (length : Usize)
    (flags : TaskMmapFlags) (heap : HeapAnswer) :
    MmapClean pages1gb s self addr length flags heap ↔
      FramesFit s self addr length flags heap := by
  obtain ⟨own, h₀⟩ := h₀
  obtain ⟨own', held, list, h⟩ := inv_mmapRun h₀ hrun
  exact mmapClean_iff pages1gb h

end Clean

/-- The range of a fixed request. -/
theorem mapTarget_twoTasks {free : List Uptr} {base : Uptr} {n : Nat}
    (h : mapTarget (twoTasks free) true 0x10000000 4096
      (TASK_MMAP_FIXED ||| TASK_MMAP_ACCESS_READ) = some (base, n)) : base = 0x10000000 ∧ n = 1 := by
  have ht : some ((0x10000000 : Uptr), 1) = some (base, n) := h
  obtain ⟨rfl, rfl⟩ := Prod.mk.inj (Option.some.inj ht)
  exact ⟨rfl, rfl⟩

/-- Four frames are enough for a page in an empty page map. -/
theorem mmap_clean_four_frames :
    MmapClean true
      (twoTasks ((List.range 4).map fun i => BitVec.ofNat 64 (0x3000 + 0x1000 * i))) true 0x10000000
      4096 (TASK_MMAP_FIXED ||| TASK_MMAP_ACCESS_READ) ⟨0xA00, 0⟩ := by
  refine (mmap_clean_iff_fit true (frames_loaded (by decide)) .start _ _ _ _ _).mpr fun base n ht => ?_
  obtain ⟨rfl, rfl⟩ := mapTarget_twoTasks ht
  exact Or.inl (by decide)

/-- With two frames the page has one, and the second of its tables has none. -/
theorem mmap_panics_two_frames :
    TasksLoaded (twoTasks ((List.range 2).map fun i => BitVec.ofNat 64 (0x3000 + 0x1000 * i))) ∧
    ¬ MmapClean true
      (twoTasks ((List.range 2).map fun i => BitVec.ofNat 64 (0x3000 + 0x1000 * i))) true 0x10000000
      4096 (TASK_MMAP_FIXED ||| TASK_MMAP_ACCESS_READ) ⟨0xA00, 0⟩ := by
  have hl := frames_loaded (n := 2) (by decide)
  refine ⟨hl, fun hclean => ?_⟩
  obtain ⟨own, hready⟩ := hl
  have hfit := (mmapClean_iff true (inv_ready hready)).mp hclean
  rcases hfit 0x10000000 1 rfl with hall | ⟨i, hi, hfew, -⟩
  · exact absurd hall (by decide)
  · obtain rfl : i = 0 := by
      change i < 1 at hi
      omega
    exact absurd hfew (by decide)

end Slightx
