/-
  File:      Slightx/Proc/FrameReuse.lean
  Subject:   Frames that are given back, and the translations processors still hold.

  Sources: kernel/mem/heap.c (`liballoc_alloc`, `liballoc_free`), kernel/proc/task.c
  (`task_munmap`), kernel/mem/vmm.c, and the lock as vendor/liballoc/src/liballoc.c takes it.

  Any number of processors; each call of the page map, of the frame allocator and of the bitmap of
  the heap is one step. The page maps are what they translate: the pages of the heap, by their
  number in it, and the user pages of each task. The direct map translates every frame, free or
  not, and is left out. `pmm_alloc` panics rather than return `NULL`, so `liballoc_alloc` never
  rolls back. An access keeps what it translates, until the processor drops it.

  * `ReuseInv` -- processors hold current translations, and a mapped frame is used once;
  * `reuse_safe` -- no frame a processor translates to is free, in every run that clears no entry
    another processor holds;
  * `reuse_safe_one` -- one processor needs no condition;
  * `heap_page_stale`, `user_page_stale` -- two do, in the heap and in a task
-/
import Slightx.Lib.Machine
import Slightx.Mem.HeapPages
import Slightx.Proc.TaskMmap

namespace Slightx

open Lib Function

/-! ## 1. Steps -/

/-- A frame, by its number. -/
abbrev Frame := Nat

inductive Page where
  | heap (number : Nat)
  | user (task : Nat) (number : Nat)
  deriving DecidableEq, Repr

/-- What is released, and the page that is next: a block of the heap, or a mapping of a task. -/
inductive Release where
  | block (base count i : Nat)
  | mapping (task : Nat) (m : TaskMapping) (i : Nat)
  deriving DecidableEq

/-- The number of the user page at `va`. -/
def userNumber (va : Uptr) : Nat := va.toNat / 4096

def Release.page : Release → Page
  | .block base _ i => .heap (base + i)
  | .mapping task m i => .user task (userNumber (vaddrOf m.vaddr i))

inductive ReusePoint where
  | off
  /-- `liballoc_alloc`: the frame of page `i`, its entry, its bit -/
  | take (start count i : Nat)
  | map (start count i : Nat) (pa : Frame)
  | mark (start count i : Nat)
  /-- the loops that release: `vmm_translate`, `vmm_unmap`, `pmm_free`, and for the heap the bit -/
  | translate (r : Release)
  | unmap (r : Release) (pa : Frame)
  | give (r : Release) (pa : Frame)
  | clear (base count i : Nat)
  | shootdown (task : Nat) (m : TaskMapping)
  deriving DecidableEq

structure ReuseSys (n : Nat) where
  pages : Page → Option Frame
  free : Frame → Bool
  heapMap : Nat → Bool
  heapLock : Option (Fin n)
  mappings : Nat → List TaskMapping
  tlb : Fin n → Page → Option Frame
  point : Fin n → ReusePoint

/-- What happens on a processor. `pmm_alloc` gives any free frame: for a page, or for a table of
    `vmm_map`. -/
inductive ReuseEvent (n : Nat) where
  | lock (c : Fin n)
  | unlock (c : Fin n)
  | alloc (c : Fin n) (pageCount : Nat)
  | free (c : Fin n) (ptr : Uptr) (pageCount : Int)
  | munmap (c : Fin n) (task : Nat) (addr : Uptr) (length : Usize)
  | take (c : Fin n) (pa : Frame)
  | table (c : Fin n) (pa : Frame)
  | run (c : Fin n)
  | access (c : Fin n) (p : Page)
  | drop (c : Fin n) (p : Page)

variable {n : Nat}

/-- The checks of `liballoc_free`. -/
def liballocFreeRange (h : HeapRegion) (ptr : Uptr) (pageCount : Int) : Option (Nat × Nat) :=
  if ptr = 0 ∨ pageCount ≤ 0 then none
  else if ptr < h.heapStart ∨ h.heapEnd ≤ ptr ∨ isPtrAligned ptr MM_VIRT_PAGE_SIZE = false then none
  else some (((ptr - h.heapStart) / MM_VIRT_PAGE_SIZE).toNat, pageCount.toNat)

/-- The mapping `task_munmap` finds. -/
def taskMunmapTarget (mappings : List TaskMapping) (addr : Uptr) (length : Usize) :
    Option TaskMapping :=
  if length = 0 ∨ addr = 0 then none
  else
    match taskRoundToPage length with
    | none => none
    | some unmapLen =>
        if USER_STACK_TOP < addr ∨ USER_STACK_TOP - addr < unmapLen then none
        else mappings.find? fun m => unmapMatches m addr (addr + unmapLen)

/-- The head of the loop over the pages that are released. -/
def Release.point : Release → ReusePoint
  | .block base count i => if i < count then .translate (.block base count i) else .off
  | .mapping task m i =>
      if i < m.pageCount.toNat then .translate (.mapping task m i) else .shootdown task m

/-- The pages of a mapping. -/
def inMapping (task : Nat) (m : TaskMapping) (p : Page) : Prop :=
  ∃ i, i < m.pageCount.toNat ∧ p = (Release.mapping task m i).page

instance (task : Nat) (m : TaskMapping) (p : Page) : Decidable (inMapping task m p) :=
  inferInstanceAs (Decidable (∃ i, i < m.pageCount.toNat ∧ p = (Release.mapping task m i).page))

/-- The task whose `task_munmap` the processor is in. -/
def ReusePoint.task : ReusePoint → Option Nat
  | .translate (.mapping task _ _) | .unmap (.mapping task _ _) _ | .give (.mapping task _ _) _
  | .shootdown task _ => some task
  | _ => none

def reuseRun (s : ReuseSys n) (c : Fin n) : Option (ReuseSys n) :=
  match s.point c with
  | .off => none
  | .take _ count i => if i < count then none else some { s with point := update s.point c .off }
  | .map start count i pa =>
      some { s with
        pages := update s.pages (.heap (start + i)) (some pa)
        point := update s.point c (.mark start count i) }
  | .mark start count i =>
      some { s with
        heapMap := update s.heapMap (start + i) true
        point := update s.point c (.take start count (i + 1)) }
  | .translate r =>
      some { s with point := update s.point c (.unmap r ((s.pages r.page).getD 0)) }
  | .unmap r pa =>
      -- `vmm_unmap` invalidates the page on this processor
      some { s with
        pages := update s.pages r.page none
        tlb := update s.tlb c (update (s.tlb c) r.page none)
        point := update s.point c (.give r pa) }
  | .give r pa =>
      let s := { s with free := update s.free pa true }
      match r with
      | .block base count i => some { s with point := update s.point c (.clear base count i) }
      | .mapping task m i =>
          some { s with point := update s.point c (Release.mapping task m (i + 1)).point }
  | .clear base count i =>
      some { s with
        heapMap := update s.heapMap (base + i) false
        point := update s.point c (Release.block base count (i + 1)).point }
  | .shootdown task m =>
      some { s with
        tlb := fun d p => if inMapping task m p then none else s.tlb d p
        mappings := update s.mappings task ((s.mappings task).erase m)
        point := update s.point c .off }

/-- `liballoc` calls with its lock held, and releases blocks it got; a task runs on one processor at
    a time. -/
def reuseStep (h : HeapRegion) (s : ReuseSys n) : ReuseEvent n → Option (ReuseSys n)
  | .lock c => if s.heapLock = none then some { s with heapLock := some c } else none
  | .unlock c =>
      if s.heapLock = some c ∧ s.point c = .off then some { s with heapLock := none } else none
  | .alloc c pageCount =>
      if s.heapLock = some c ∧ s.point c = .off then
        match heapSearch s.heapMap (heapPageCount h) pageCount (heapPageCount h) 0 with
        | none => some s
        | some start => some { s with point := update s.point c (.take start pageCount 0) }
      else none
  | .free c ptr pageCount =>
      if s.heapLock = some c ∧ s.point c = .off then
        match liballocFreeRange h ptr pageCount with
        | none => some s
        | some (base, count) =>
            if base + count ≤ heapPageCount h then
              some { s with point := update s.point c (Release.block base count 0).point }
            else none
      else none
  | .munmap c task addr length =>
      if s.point c = .off ∧ ∀ d, (s.point d).task ≠ some task then
        match taskMunmapTarget (s.mappings task) addr length with
        | none => some s
        | some m =>
            if m.flags &&& TASK_MMAP_ACCESS_READ.setWidth 64 ≠ 0 then
              some { s with point := update s.point c (Release.mapping task m 0).point }
            else some { s with mappings := update s.mappings task ((s.mappings task).erase m) }
      else none
  | .take c pa =>
      match s.point c with
      | .take start count i =>
          if i < count ∧ s.free pa = true ∧ pa ≠ 0 then
            some { s with
              free := update s.free pa false
              point := update s.point c (.map start count i pa) }
          else none
      | _ => none
  | .table c pa =>
      match s.point c with
      | .map _ _ _ _ =>
          if s.free pa = true ∧ pa ≠ 0 then some { s with free := update s.free pa false } else none
      | _ => none
  | .run c => reuseRun s c
  | .access c p => some { s with tlb := update s.tlb c (update (s.tlb c) p (s.pages p)) }
  | .drop c p => some { s with tlb := update s.tlb c (update (s.tlb c) p none) }

/-! ## 2. Translations -/

/-- The frame a processor has in hand: it is neither free nor mapped. A page that was not mapped
    leaves it with the null pointer, which is no frame. -/
def ReusePoint.hand : ReusePoint → Option Frame
  | .map _ _ _ pa => some pa
  | .give _ pa => if pa = 0 then none else some pa
  | _ => none

/-- The calls `liballoc` makes with its lock held. -/
def ReusePoint.inHeap : ReusePoint → Bool
  | .take _ _ _ | .map _ _ _ _ | .mark _ _ _ | .clear _ _ _ | .translate (.block _ _ _)
  | .unmap (.block _ _ _) _ | .give (.block _ _ _) _ => true
  | _ => false

/-- The bits of the heap `liballoc_alloc` still counts on: `from` and up to `stop`. -/
def ReusePoint.wanted : ReusePoint → Option (Nat × Nat)
  | .take start count i | .map start count i _ => some (start + i, start + count)
  | .mark start count i => some (start + i + 1, start + count)
  | _ => none

/-- The page of the heap that has its entry and not its bit. -/
def ReusePoint.unmarked : ReusePoint → Option Nat
  | .mark start _ i => some (start + i)
  | _ => none

/-- The page of the heap that has its bit and not its entry. -/
def ReusePoint.gone : ReusePoint → Option Nat
  | .give (.block base _ i) _ | .clear base _ i => some (base + i)
  | _ => none

/-- **Processors hold current translations**, a mapped frame is mapped once and not free, and the
    heap has the bits of its pages. -/
structure ReuseInv (s : ReuseSys n) : Prop where
  cached : ∀ c p f, s.tlb c p = some f → s.pages p = some f
  once : ∀ p q f, s.pages p = some f → s.pages q = some f → p = q
  used : ∀ p f, s.pages p = some f → s.free f = false ∧ f ≠ 0
  hand : ∀ c f, (s.point c).hand = some f → s.free f = false ∧ f ≠ 0 ∧ ∀ p, s.pages p ≠ some f
  apart : ∀ c d f, (s.point c).hand = some f → (s.point d).hand = some f → c = d
  lock : ∀ c, (s.point c).inHeap = true → s.heapLock = some c
  alone : ∀ c d t, (s.point c).task = some t → (s.point d).task = some t → c = d
  marked : ∀ j f, s.pages (.heap j) = some f →
    s.heapMap j = true ∨ ∃ c, (s.point c).unmarked = some j
  wanted : ∀ c a b, (s.point c).wanted = some (a, b) → ∀ j, a ≤ j → j < b → s.heapMap j = false
  gone : ∀ c j, (s.point c).gone = some j → s.pages (.heap j) = none
  seen : ∀ c r pa, s.point c = .unmap r pa → pa = (s.pages r.page).getD 0
  within : ∀ c start count i pa, s.point c = .map start count i pa → i < count

section Translations

variable {h : HeapRegion} {s s' : ReuseSys n} {c d : Fin n} {x : ReusePoint} {p : Page} {f : Frame}
  {e : ReuseEvent n} {es : List (ReuseEvent n)} {i j start count : Nat} {r : Release}

/-- The processor goes on to `x`. -/
theorem inv_moved (hs : ReuseInv s)
    (hhand : ∀ f, x.hand = some f → s.free f = false ∧ f ≠ 0 ∧ (∀ p, s.pages p ≠ some f) ∧
      ∀ d, d ≠ c → (s.point d).hand ≠ some f)
    (hlock : x.inHeap = true → s.heapLock = some c)
    (halone : ∀ t, x.task = some t → ∀ d, d ≠ c → (s.point d).task ≠ some t)
    (hmarked : ∀ j, (s.point c).unmarked = some j → s.heapMap j = true)
    (hwanted : ∀ a b, x.wanted = some (a, b) → ∀ j, a ≤ j → j < b → s.heapMap j = false)
    (hgone : ∀ j, x.gone = some j → s.pages (.heap j) = none)
    (hseen : ∀ r pa, x = .unmap r pa → pa = (s.pages r.page).getD 0)
    (hwithin : ∀ start count i pa, x = .map start count i pa → i < count) :
    ReuseInv { s with point := update s.point c x } := by
  have hpoint : ∀ d, d ≠ c → update s.point c x d = s.point d := fun d hd => update_of_ne hd _ _
  have hself : update s.point c x c = x := update_self _ _ _
  refine ⟨hs.cached, hs.once, hs.used, fun d f hd => ?_, fun d d' f hd hd' => ?_, fun d hd => ?_,
    fun d d' t hd hd' => ?_, fun j f hj => ?_, fun d a b hd => ?_, fun d j hd => ?_,
    fun d r pa hd => ?_, fun d start count i pa hd => ?_⟩
  · change (update s.point c x d).hand = some f at hd
    by_cases hdc : d = c
    · rw [hdc, hself] at hd
      obtain ⟨h1, h2, h3, _⟩ := hhand f hd
      exact ⟨h1, h2, h3⟩
    · rw [hpoint d hdc] at hd
      exact hs.hand d f hd
  · change (update s.point c x d).hand = some f at hd
    change (update s.point c x d').hand = some f at hd'
    by_cases hdc : d = c
    · by_cases hdc' : d' = c
      · rw [hdc, hdc']
      · rw [hdc, hself] at hd
        rw [hpoint d' hdc'] at hd'
        exact absurd hd' ((hhand f hd).2.2.2 d' hdc')
    · rw [hpoint d hdc] at hd
      by_cases hdc' : d' = c
      · rw [hdc', hself] at hd'
        exact absurd hd ((hhand f hd').2.2.2 d hdc)
      · rw [hpoint d' hdc'] at hd'
        exact hs.apart d d' f hd hd'
  · change (update s.point c x d).inHeap = true at hd
    by_cases hdc : d = c
    · rw [hdc, hself] at hd
      rw [hdc]
      exact hlock hd
    · rw [hpoint d hdc] at hd
      exact hs.lock d hd
  · change (update s.point c x d).task = some t at hd
    change (update s.point c x d').task = some t at hd'
    by_cases hdc : d = c
    · by_cases hdc' : d' = c
      · rw [hdc, hdc']
      · rw [hdc, hself] at hd
        rw [hpoint d' hdc'] at hd'
        exact absurd hd' (halone t hd d' hdc')
    · rw [hpoint d hdc] at hd
      by_cases hdc' : d' = c
      · rw [hdc', hself] at hd'
        exact absurd hd (halone t hd' d hdc)
      · rw [hpoint d' hdc'] at hd'
        exact hs.alone d d' t hd hd'
  · rcases hs.marked j f hj with hj | ⟨d, hd⟩
    · exact Or.inl hj
    · by_cases hdc : d = c
      · rw [hdc] at hd
        exact Or.inl (hmarked j hd)
      · refine Or.inr ⟨d, ?_⟩
        show (update s.point c x d).unmarked = some j
        rw [hpoint d hdc]
        exact hd
  · change (update s.point c x d).wanted = some (a, b) at hd
    by_cases hdc : d = c
    · rw [hdc, hself] at hd
      exact hwanted a b hd
    · rw [hpoint d hdc] at hd
      exact hs.wanted d a b hd
  · change (update s.point c x d).gone = some j at hd
    by_cases hdc : d = c
    · rw [hdc, hself] at hd
      exact hgone j hd
    · rw [hpoint d hdc] at hd
      exact hs.gone d j hd
  · change update s.point c x d = .unmap r pa at hd
    by_cases hdc : d = c
    · rw [hdc, hself] at hd
      exact hseen r pa hd
    · rw [hpoint d hdc] at hd
      exact hs.seen d r pa hd
  · change update s.point c x d = .map start count i pa at hd
    by_cases hdc : d = c
    · rw [hdc, hself] at hd
      exact hwithin start count i pa hd
    · rw [hpoint d hdc] at hd
      exact hs.within d start count i pa hd

/-- Fewer translations are held. -/
theorem inv_tlb {tlb : Fin n → Page → Option Frame} (hs : ReuseInv s)
    (htlb : ∀ c p f, tlb c p = some f → s.pages p = some f) :
    ReuseInv { s with tlb := tlb } :=
  ⟨htlb, hs.once, hs.used, hs.hand, hs.apart, hs.lock, hs.alone, hs.marked, hs.wanted, hs.gone,
    hs.seen, hs.within⟩

theorem inv_mappings' {mappings : Nat → List TaskMapping} (hs : ReuseInv s) :
    ReuseInv { s with mappings := mappings } :=
  ⟨hs.cached, hs.once, hs.used, hs.hand, hs.apart, hs.lock, hs.alone, hs.marked, hs.wanted, hs.gone,
    hs.seen, hs.within⟩

/-- The allocator has a frame less. -/
theorem inv_taken (hs : ReuseInv s) : ReuseInv { s with free := update s.free f false } := by
  have hfree : ∀ g, s.free g = false → update s.free f false g = false := fun g hg => by
    by_cases hgf : g = f
    · rw [hgf, update_self]
    · rw [update_of_ne hgf]
      exact hg
  exact ⟨hs.cached, hs.once, fun p g hp => ⟨hfree g (hs.used p g hp).1, (hs.used p g hp).2⟩,
    fun d g hd => ⟨hfree g (hs.hand d g hd).1, (hs.hand d g hd).2⟩, hs.apart, hs.lock, hs.alone,
    hs.marked, hs.wanted, hs.gone, hs.seen, hs.within⟩

/-- A frame nobody has is free. -/
theorem inv_given (hs : ReuseInv s) (hpages : ∀ p, s.pages p ≠ some f)
    (hhand : ∀ d, (s.point d).hand ≠ some f) :
    ReuseInv { s with free := update s.free f true } := by
  have hfree : ∀ g, g ≠ f → s.free g = false → update s.free f true g = false := fun g hg hf => by
    rw [update_of_ne hg]
    exact hf
  refine ⟨hs.cached, hs.once, fun p g hp => ?_, fun d g hd => ?_, hs.apart, hs.lock, hs.alone,
    hs.marked, hs.wanted, hs.gone, hs.seen, hs.within⟩
  · refine ⟨hfree g (fun hg => hpages p ?_) (hs.used p g hp).1, (hs.used p g hp).2⟩
    rw [← hg]
    exact hp
  · refine ⟨hfree g (fun hg => hhand d ?_) (hs.hand d g hd).1, (hs.hand d g hd).2⟩
    rw [← hg]
    exact hd

/-- A page of the heap gets its entry. -/
theorem inv_entered (hs : ReuseInv s) (hf : s.free f = false) (h0 : f ≠ 0)
    (hpages : ∀ p, s.pages p ≠ some f) (hhand : ∀ d, (s.point d).hand ≠ some f)
    (hnone : s.pages (.heap j) = none) (hc : (s.point c).unmarked = some j)
    (hgone : ∀ d, (s.point d).gone ≠ some j)
    (hseen : ∀ d r pa, s.point d = .unmap r pa → r.page ≠ .heap j) :
    ReuseInv { s with pages := update s.pages (.heap j) (some f) } := by
  have hcases : ∀ q g, update s.pages (.heap j) (some f) q = some g →
      (q = .heap j ∧ g = f) ∨ s.pages q = some g := fun q g hq => by
    by_cases hqj : q = .heap j
    · rw [hqj, update_self] at hq
      exact Or.inl ⟨hqj, (Option.some.inj hq).symm⟩
    · rw [update_of_ne hqj] at hq
      exact Or.inr hq
  refine ⟨fun d q g hd => ?_, fun q q' g hq hq' => ?_, fun q g hq => ?_, fun d g hd => ?_, hs.apart,
    hs.lock, hs.alone, fun i g hi => ?_, hs.wanted, fun d i hd => ?_, fun d r pa hd => ?_,
    hs.within⟩
  · have hq := hs.cached d q g hd
    show update s.pages (.heap j) (some f) q = some g
    rw [update_of_ne fun hqj => ?_]
    · exact hq
    · rw [hqj, hnone] at hq
      cases hq
  · rcases hcases q g hq with ⟨h1, h2⟩ | hq
    · rcases hcases q' g hq' with ⟨h1', _⟩ | hq'
      · rw [h1, h1']
      · rw [h2] at hq'
        exact absurd hq' (hpages q')
    · rcases hcases q' g hq' with ⟨_, h2'⟩ | hq'
      · rw [h2'] at hq
        exact absurd hq (hpages q)
      · exact hs.once q q' g hq hq'
  · rcases hcases q g hq with ⟨_, h2⟩ | hq
    · rw [h2]
      exact ⟨hf, h0⟩
    · exact hs.used q g hq
  · obtain ⟨h1, h2, h3⟩ := hs.hand d g hd
    refine ⟨h1, h2, fun q hq => ?_⟩
    rcases hcases q g hq with ⟨_, hg⟩ | hq
    · rw [hg] at hd
      exact hhand d hd
    · exact h3 q hq
  · rcases hcases (.heap i) g hi with ⟨hij, _⟩ | hi
    · cases hij
      exact Or.inr ⟨c, hc⟩
    · exact hs.marked i g hi
  · show update s.pages (.heap j) (some f) (.heap i) = none
    rw [update_of_ne fun hij => ?_]
    · exact hs.gone d i hd
    · cases hij
      exact hgone d hd
  · show pa = (update s.pages (.heap j) (some f) r.page).getD 0
    rw [update_of_ne (hseen d r pa hd)]
    exact hs.seen d r pa hd

/-- A page loses its entry, and no other processor holds its translation. -/
theorem inv_left (hs : ReuseInv s) (hheld : ∀ d, d ≠ c → s.tlb d p = none)
    (hseen : ∀ d r pa, s.point d = .unmap r pa → r.page ≠ p) :
    ReuseInv { s with
      pages := update s.pages p none
      tlb := update s.tlb c (update (s.tlb c) p none) } := by
  have hsub : ∀ q g, update s.pages p none q = some g → s.pages q = some g := fun q g hq => by
    by_cases hqp : q = p
    · rw [hqp, update_self] at hq
      cases hq
    · rw [update_of_ne hqp] at hq
      exact hq
  refine ⟨fun d q g hd => ?_, fun q q' g hq hq' => hs.once q q' g (hsub q g hq) (hsub q' g hq'),
    fun q g hq => hs.used q g (hsub q g hq), fun d g hd => ?_, hs.apart, hs.lock, hs.alone,
    fun i g hi => hs.marked i g (hsub _ g hi), hs.wanted, fun d i hd => ?_, fun d r pa hd => ?_,
    hs.within⟩
  · change update s.tlb c (update (s.tlb c) p none) d q = some g at hd
    have hq : q ≠ p ∧ s.tlb d q = some g := by
      by_cases hdc : d = c
      · rw [hdc, update_self] at hd
        by_cases hqp : q = p
        · rw [hqp, update_self] at hd
          cases hd
        · rw [update_of_ne hqp] at hd
          rw [hdc]
          exact ⟨hqp, hd⟩
      · rw [update_of_ne hdc] at hd
        refine ⟨fun hqp => ?_, hd⟩
        rw [hqp, hheld d hdc] at hd
        cases hd
    show update s.pages p none q = some g
    rw [update_of_ne hq.1]
    exact hs.cached d q g hq.2
  · obtain ⟨h1, h2, h3⟩ := hs.hand d g hd
    exact ⟨h1, h2, fun q hq => h3 q (hsub q g hq)⟩
  · show update s.pages p none (.heap i) = none
    by_cases hip : Page.heap i = p
    · rw [hip, update_self]
    · rw [update_of_ne hip]
      exact hs.gone d i hd
  · show pa = (update s.pages p none r.page).getD 0
    rw [update_of_ne (hseen d r pa hd)]
    exact hs.seen d r pa hd

theorem inv_marked (hs : ReuseInv s)
    (hwanted : ∀ d a b, (s.point d).wanted = some (a, b) → a ≤ j → b ≤ j) :
    ReuseInv { s with heapMap := update s.heapMap j true } := by
  refine ⟨hs.cached, hs.once, hs.used, hs.hand, hs.apart, hs.lock, hs.alone, fun i g hi => ?_,
    fun d a b hd i ha hb => ?_, hs.gone, hs.seen, hs.within⟩
  · refine (hs.marked i g hi).imp_left fun hm => ?_
    show update s.heapMap j true i = true
    by_cases hij : i = j
    · rw [hij, update_self]
    · rw [update_of_ne hij]
      exact hm
  · show update s.heapMap j true i = false
    rw [update_of_ne fun hij => ?_]
    · exact hs.wanted d a b hd i ha hb
    · have := hwanted d a b hd (by omega)
      omega

theorem inv_cleared (hs : ReuseInv s) (hnone : s.pages (.heap j) = none) :
    ReuseInv { s with heapMap := update s.heapMap j false } := by
  refine ⟨hs.cached, hs.once, hs.used, hs.hand, hs.apart, hs.lock, hs.alone, fun i g hi => ?_,
    fun d a b hd i ha hb => ?_, hs.gone, hs.seen, hs.within⟩
  · refine (hs.marked i g hi).imp_left fun hm => ?_
    show update s.heapMap j false i = true
    rw [update_of_ne fun hij => ?_]
    · exact hm
    · rw [hij, show s.pages (.heap j) = none from hnone] at hi
      cases hi
  · show update s.heapMap j false i = false
    by_cases hij : i = j
    · rw [hij, update_self]
    · rw [update_of_ne hij]
      exact hs.wanted d a b hd i ha hb

/-! ## 3. Steps keep it -/

/-- One processor is in the heap at a time. -/
theorem inHeap_alone (hs : ReuseInv s) (hc : (s.point c).inHeap = true)
    (hd : (s.point d).inHeap = true) : c = d :=
  Option.some.inj ((hs.lock c hc).symm.trans (hs.lock d hd))

theorem inHeap_unmarked (h : x.unmarked = some j) : x.inHeap = true := by
  cases x with
  | mark start count i => rfl
  | _ => cases h

theorem inHeap_wanted {a b : Nat} (h : x.wanted = some (a, b)) : x.inHeap = true := by
  cases x with
  | take start count i => rfl
  | map start count i pa => rfl
  | mark start count i => rfl
  | _ => cases h

theorem inHeap_gone (h : x.gone = some j) : x.inHeap = true := by
  cases x with
  | give r pa =>
      cases r with
      | block base count i => rfl
      | mapping task m i => cases h
  | clear base count i => rfl
  | _ => cases h

/-- A page that wants its entry has none. -/
theorem wanted_none (hs : ReuseInv s) (hc : (s.point c).wanted = some (start, count))
    (hu : (s.point c).unmarked = none) (hj : start ≤ j) (hjc : j < count) :
    s.pages (.heap j) = none := by
  refine Option.eq_none_iff_forall_ne_some.mpr fun f hf => ?_
  rcases hs.marked j f hf with hm | ⟨d, hd⟩
  · rw [hs.wanted c start count hc j hj hjc] at hm
    cases hm
  · rw [inHeap_alone hs (inHeap_wanted hc) (inHeap_unmarked hd), hd] at hu
    cases hu

/-- Nobody else is about to clear the entry of the page. -/
theorem unmap_apart {pa : Frame} (hs : ReuseInv s) (hc : s.point c = .unmap r pa) (hd : d ≠ c)
    {r' : Release} {pa' : Frame} (hd' : s.point d = .unmap r' pa') : r'.page ≠ r.page := by
  intro he
  cases r with
  | block base count i =>
      cases r' with
      | block base' count' i' =>
          exact hd (inHeap_alone hs (by rw [hd']; rfl) (by rw [hc]; rfl))
      | mapping task' m' i' => cases he
  | mapping task m i =>
      cases r' with
      | block base' count' i' => cases he
      | mapping task' m' i' =>
          obtain ⟨rfl, _⟩ := Page.user.inj he
          exact hd (hs.alone d c task' (by rw [hd']; rfl) (by rw [hc]; rfl))

/-- The processor goes on to a point that says nothing about frames and bits. -/
theorem inv_plain (hs : ReuseInv s) (hhand : x.hand = none) (hwanted : x.wanted = none)
    (hunmap : ∀ r pa, x ≠ .unmap r pa) (hmap : ∀ start count i pa, x ≠ .map start count i pa)
    (hgone : ∀ j, x.gone = some j → s.pages (.heap j) = none)
    (hmarked : (s.point c).unmarked = none) (hlock : x.inHeap = true → s.heapLock = some c)
    (halone : ∀ t, x.task = some t → ∀ d, d ≠ c → (s.point d).task ≠ some t) :
    ReuseInv { s with point := update s.point c x } := by
  refine inv_moved hs (fun f hf => ?_) hlock halone (fun j hj => ?_) (fun a b hx => ?_) hgone
    (fun r pa hx => absurd hx (hunmap r pa))
    fun start count i pa hx => absurd hx (hmap start count i pa)
  · rw [hhand] at hf
    cases hf
  · rw [hmarked] at hj
    cases hj
  · rw [hwanted] at hx
    cases hx

theorem inv_off (hs : ReuseInv s) (hmarked : (s.point c).unmarked = none) :
    ReuseInv { s with point := update s.point c .off } :=
  inv_plain hs rfl rfl nofun nofun nofun hmarked nofun nofun

/-- The loop that releases goes on. -/
theorem inv_release (hs : ReuseInv s) (hmarked : (s.point c).unmarked = none)
    (hblock : ∀ base count i, r = .block base count i → s.heapLock = some c)
    (hmapping : ∀ task m i, r = .mapping task m i → ∀ d, d ≠ c → (s.point d).task ≠ some task) :
    ReuseInv { s with point := update s.point c r.point } := by
  cases r with
  | block base count i =>
      unfold Release.point
      dsimp only
      split
      · exact inv_plain hs rfl rfl nofun nofun nofun hmarked (fun _ => hblock base count i rfl)
          nofun
      · exact inv_off hs hmarked
  | mapping task m i =>
      unfold Release.point
      dsimp only
      split
      · refine inv_plain hs rfl rfl nofun nofun nofun hmarked nofun fun t ht => ?_
        cases ht
        exact hmapping task m i rfl
      · refine inv_plain hs rfl rfl nofun nofun nofun hmarked nofun fun t ht => ?_
        cases ht
        exact hmapping task m i rfl

theorem inv_map {pa : Frame} (hs : ReuseInv s) (hc : s.point c = .map start count i pa) :
    ReuseInv { s with
      pages := update s.pages (.heap (start + i)) (some pa)
      point := update s.point c (.mark start count i) } := by
  have hin : (s.point c).inHeap = true := by rw [hc]; rfl
  have hw : (s.point c).wanted = some (start + i, start + count) := by rw [hc]; rfl
  have hu : (s.point c).unmarked = none := by rw [hc]; rfl
  have hi := hs.within c start count i pa hc
  obtain ⟨hf, h0, hpages⟩ := hs.hand c pa (by rw [hc]; rfl)
  have hnone := wanted_none hs hw hu (le_refl _) (by omega)
  have hmove : ReuseInv { s with point := update s.point c (.mark start count i) } := by
    refine inv_moved hs nofun (fun _ => hs.lock c hin) nofun (fun j hj => ?_)
      (fun a b hx j ha hb => ?_) nofun nofun nofun
    · rw [hu] at hj
      cases hj
    · cases hx
      exact hs.wanted c _ _ hw j (by omega) hb
  have hself : update s.point c (.mark start count i) c = .mark start count i := update_self _ _ _
  refine inv_entered (c := c) hmove hf h0 hpages (fun d hd => ?_) hnone
    (congrArg ReusePoint.unmarked hself)
    (fun d hd => ?_) fun d r pa' hd he => ?_
  · change (update s.point c (.mark start count i) d).hand = some pa at hd
    by_cases hdc : d = c
    · rw [hdc, hself] at hd
      cases hd
    · rw [update_of_ne hdc] at hd
      exact hdc (hs.apart d c pa hd (by rw [hc]; rfl))
  · change (update s.point c (.mark start count i) d).gone = some (start + i) at hd
    by_cases hdc : d = c
    · rw [hdc, hself] at hd
      cases hd
    · rw [update_of_ne hdc] at hd
      exact hdc (inHeap_alone hs (inHeap_gone hd) hin)
  · change update s.point c (.mark start count i) d = .unmap r pa' at hd
    by_cases hdc : d = c
    · rw [hdc, hself] at hd
      cases hd
    · rw [update_of_ne hdc] at hd
      cases r with
      | block base count' i' => exact hdc (inHeap_alone hs (by rw [hd]; rfl) hin)
      | mapping task m i' => cases he

theorem inv_mark (hs : ReuseInv s) (hc : s.point c = .mark start count i) :
    ReuseInv { s with
      heapMap := update s.heapMap (start + i) true
      point := update s.point c (.take start count (i + 1)) } := by
  have hin : (s.point c).inHeap = true := by rw [hc]; rfl
  have hw : (s.point c).wanted = some (start + i + 1, start + count) := by rw [hc]; rfl
  have hmark : ReuseInv { s with heapMap := update s.heapMap (start + i) true } := by
    refine inv_marked hs fun d a b hd ha => ?_
    have hdc := inHeap_alone hs (inHeap_wanted hd) hin
    rw [hdc, hw] at hd
    cases hd
    omega
  refine inv_moved hmark nofun (fun _ => hs.lock c hin) nofun (fun j hj => ?_)
    (fun a b hx j ha hb => ?_) nofun nofun nofun
  · change (s.point c).unmarked = some j at hj
    rw [hc] at hj
    cases hj
    exact update_self _ _ _
  · cases hx
    show update s.heapMap (start + i) true j = false
    rw [update_of_ne (by omega)]
    exact hs.wanted c _ _ hw j (by omega) hb

theorem inv_unmap {pa : Frame} (hs : ReuseInv s) (hc : s.point c = .unmap r pa)
    (hheld : ∀ d, d ≠ c → s.tlb d r.page = none) :
    ReuseInv { s with
      pages := update s.pages r.page none
      tlb := update s.tlb c (update (s.tlb c) r.page none)
      point := update s.point c (.give r pa) } := by
  have hoff : ReuseInv { s with point := update s.point c .off } := inv_off hs (by rw [hc]; rfl)
  have hleft := inv_left (c := c) (p := r.page) hoff hheld fun d r' pa' hd => by
    change update s.point c .off d = .unmap r' pa' at hd
    by_cases hdc : d = c
    · rw [hdc, update_self] at hd
      cases hd
    · rw [update_of_ne hdc] at hd
      exact unmap_apart hs hc hdc hd
  have hmove := inv_moved (c := c) (x := .give r pa) hleft (fun f hf => ?_) (fun hx => ?_)
    (fun t ht d hd => ?_) (fun j hj => ?_) nofun (fun j hj => ?_) nofun nofun
  · change ReuseInv { s with
      pages := update s.pages r.page none
      tlb := update s.tlb c (update (s.tlb c) r.page none)
      point := update (update s.point c .off) c (.give r pa) } at hmove
    rw [update_idem] at hmove
    exact hmove
  · have hseen := hs.seen c r pa hc
    have hpage : pa ≠ 0 ∧ f = pa := by
      change (if pa = 0 then none else some pa) = some f at hf
      split at hf
      · cases hf
      · exact ⟨‹_›, (Option.some.inj hf).symm⟩
    obtain ⟨h0, rfl⟩ := hpage
    have hsome : s.pages r.page = some f := by
      cases hp : s.pages r.page with
      | none =>
          rw [hp] at hseen
          exact absurd hseen h0
      | some g =>
          rw [hp] at hseen
          rw [show f = g from hseen]
    refine ⟨(hs.used _ f hsome).1, h0, fun q hq => ?_, fun d hd hh => ?_⟩
    · change update s.pages r.page none q = some f at hq
      by_cases hqr : q = r.page
      · rw [hqr, update_self] at hq
        cases hq
      · rw [update_of_ne hqr] at hq
        exact hqr (hs.once q r.page f hq hsome)
    · change (update s.point c .off d).hand = some f at hh
      rw [update_of_ne hd] at hh
      exact (hs.hand d f hh).2.2 r.page hsome
  · cases r with
    | block base count i => exact hs.lock c (by rw [hc]; rfl)
    | mapping task m i => cases hx
  · change (update s.point c .off d).task ≠ some t
    rw [update_of_ne hd]
    refine fun hdt => hd (hs.alone d c t hdt ?_)
    cases r with
    | block base count i => cases ht
    | mapping task m i =>
        rw [hc]
        exact ht
  · change (update s.point c .off c).unmarked = some j at hj
    rw [update_self] at hj
    cases hj
  · cases r with
    | block base count i =>
        cases hj
        exact update_self _ _ _
    | mapping task m i => cases hj

/-- Nothing names the frame that is given back. -/
theorem not_named {pa : Frame} (hs : ReuseInv s) (hc : s.point c = .give r pa) :
    (∀ p, s.pages p ≠ some pa) ∧ ∀ d, d ≠ c → (s.point d).hand ≠ some pa := by
  by_cases h0 : pa = 0
  · exact ⟨fun p hp => (hs.used p pa hp).2 h0, fun d _ hd => (hs.hand d pa hd).2.1 h0⟩
  · have hhand : (s.point c).hand = some pa := by
      rw [hc]
      exact if_neg h0
    exact ⟨(hs.hand c pa hhand).2.2, fun d hd hh => hd (hs.apart d c pa hh hhand)⟩

theorem inv_give {pa : Frame} (hs : ReuseInv s) (hc : s.point c = .give r pa) (hx : x.hand = none)
    (hmove : ReuseInv { s with point := update s.point c x }) :
    ReuseInv { s with free := update s.free pa true, point := update s.point c x } := by
  obtain ⟨hpages, hhand⟩ := not_named hs hc
  refine inv_given hmove hpages fun d hd => ?_
  change (update s.point c x d).hand = some pa at hd
  by_cases hdc : d = c
  · rw [hdc, update_self, hx] at hd
    cases hd
  · rw [update_of_ne hdc] at hd
    exact hhand d hdc hd

theorem release_hand (r : Release) : r.point.hand = none := by
  cases r with
  | block base count i =>
      unfold Release.point
      dsimp only
      split <;> rfl
  | mapping task m i =>
      unfold Release.point
      dsimp only
      split <;> rfl

/-- **One step of a call**: it clears no entry another processor holds. -/
theorem inv_run (hs : ReuseInv s)
    (hheld : ∀ r pa, s.point c = .unmap r pa → ∀ d, d ≠ c → s.tlb d r.page = none)
    (hrun : reuseRun s c = some s') : ReuseInv s' := by
  unfold reuseRun at hrun
  split at hrun
  · cases hrun
  · rename_i hc
    split at hrun
    · cases hrun
    · cases hrun
      exact inv_off hs (by rw [hc]; rfl)
  · rename_i hc
    cases hrun
    exact inv_map hs hc
  · rename_i hc
    cases hrun
    exact inv_mark hs hc
  · rename_i r hc
    cases hrun
    refine inv_moved hs nofun (fun hx => ?_) (fun t ht d hd hdt => ?_) (fun j hj => ?_) nofun nofun
      (fun r' pa he => ?_) nofun
    · cases r with
      | block base count i => exact hs.lock c (by rw [hc]; rfl)
      | mapping task m i => cases hx
    · refine hd (hs.alone d c t hdt ?_)
      cases r with
      | block base count i => cases ht
      | mapping task m i =>
          rw [hc]
          exact ht
    · rw [hc] at hj
      cases hj
    · cases he
      rfl
  · rename_i r pa hc
    cases hrun
    exact inv_unmap hs hc (hheld r pa hc)
  · rename_i r pa hc
    have hmarked : (s.point c).unmarked = none := by rw [hc]; rfl
    cases r with
    | block base count i =>
        cases hrun
        have hlock := hs.lock c (by rw [hc]; rfl)
        refine inv_give hs hc rfl (inv_plain hs rfl rfl nofun nofun (fun j hj => ?_) hmarked
          (fun _ => hlock) nofun)
        exact hs.gone c j (by rw [hc]; exact hj)
    | mapping task m i =>
        cases hrun
        refine inv_give hs hc (release_hand _)
          (inv_release hs hmarked nofun fun t m' i' he d hd hdt => ?_)
        cases he
        exact hd (hs.alone d c task hdt (by rw [hc]; rfl))
  · rename_i base count i hc
    cases hrun
    have hlock := hs.lock c (by rw [hc]; rfl)
    exact inv_release (inv_cleared hs (hs.gone c (base + i) (by rw [hc]; rfl)))
      (show (s.point c).unmarked = none by rw [hc]; rfl) (fun _ _ _ _ => hlock) nofun
  · rename_i task m hc
    cases hrun
    refine inv_tlb (inv_mappings' (inv_off hs (by rw [hc]; rfl))) fun d p f hd => ?_
    change (if inMapping task m p then none else s.tlb d p) = some f at hd
    split at hd
    · cases hd
    · exact hs.cached d p f hd

/-! ## 4. Runs -/

/-- The step clears no entry another processor holds. -/
def NotHeld (s : ReuseSys n) : ReuseEvent n → Prop
  | .run c => ∀ r pa, s.point c = .unmap r pa → ∀ d, d ≠ c → s.tlb d r.page = none
  | _ => True

/-- **One step.** -/
theorem inv_reuseStep (hs : ReuseInv s) (hheld : NotHeld s e) (hstep : reuseStep h s e = some s') :
    ReuseInv s' := by
  cases e with
  | lock c =>
      rw [reuseStep] at hstep
      split at hstep
      · rename_i hlock
        cases hstep
        refine ⟨hs.cached, hs.once, hs.used, hs.hand, hs.apart, fun d hd => ?_, hs.alone, hs.marked,
          hs.wanted, hs.gone, hs.seen, hs.within⟩
        have := hs.lock d hd
        rw [hlock] at this
        cases this
      · cases hstep
  | unlock c =>
      rw [reuseStep] at hstep
      split at hstep
      · rename_i hc
        cases hstep
        refine ⟨hs.cached, hs.once, hs.used, hs.hand, hs.apart, fun d hd => ?_, hs.alone, hs.marked,
          hs.wanted, hs.gone, hs.seen, hs.within⟩
        have hin : (s.point d).inHeap = true := hd
        rw [Option.some.inj ((hs.lock d hin).symm.trans hc.1), hc.2] at hin
        cases hin
      · cases hstep
  | alloc c pageCount =>
      rw [reuseStep] at hstep
      split at hstep
      · rename_i hc
        split at hstep
        · cases hstep
          exact hs
        · rename_i start hsearch
          cases hstep
          refine inv_moved hs nofun (fun _ => hc.1) nofun (fun j hj => ?_)
            (fun a b hx j ha hb => ?_) nofun nofun nofun
          · rw [hc.2] at hj
            cases hj
          · cases hx
            have := (heapSearch_room hsearch (j - start) (by omega)).2
            rwa [show start + (j - start) = j by omega] at this
      · cases hstep
  | free c ptr pageCount =>
      rw [reuseStep] at hstep
      split at hstep
      · rename_i hc
        split at hstep
        · cases hstep
          exact hs
        · split at hstep
          · cases hstep
            exact inv_release hs (by rw [hc.2]; rfl) (fun _ _ _ _ => hc.1) nofun
          · cases hstep
      · cases hstep
  | munmap c task addr length =>
      rw [reuseStep] at hstep
      split at hstep
      · rename_i hc
        split at hstep
        · cases hstep
          exact hs
        · split at hstep
          · cases hstep
            refine inv_release hs (by rw [hc.1]; rfl) nofun fun t m i he d _ => ?_
            cases he
            exact hc.2 d
          · cases hstep
            exact inv_mappings' hs
      · cases hstep
  | take c pa =>
      rw [reuseStep] at hstep
      split at hstep
      · rename_i start count i hc
        split at hstep
        · rename_i ht
          obtain ⟨hi, hfree, h0⟩ := ht
          cases hstep
          refine inv_moved (inv_taken (f := pa) hs) (fun f hf => ?_)
            (fun _ => hs.lock c (by rw [hc]; rfl)) nofun (fun j hj => ?_) (fun a b hx => ?_) nofun
            nofun fun start' count' i' pa' he => ?_
          · cases hf
            refine ⟨update_self _ _ _, h0, fun p hp => ?_, fun d _ hd => ?_⟩
            · have := (hs.used p pa hp).1
              rw [hfree] at this
              cases this
            · have := (hs.hand d pa hd).1
              rw [hfree] at this
              cases this
          · change (s.point c).unmarked = some j at hj
            rw [hc] at hj
            cases hj
          · cases hx
            exact hs.wanted c _ _ (by rw [hc]; rfl)
          · cases he
            exact hi
        · cases hstep
      · cases hstep
  | table c pa =>
      rw [reuseStep] at hstep
      split at hstep
      · split at hstep
        · cases hstep
          exact inv_taken hs
        · cases hstep
      · cases hstep
  | run c => exact inv_run hs hheld hstep
  | access c p =>
      cases hstep
      refine inv_tlb hs fun d q f hd => ?_
      by_cases hdc : d = c
      · rw [hdc, update_self] at hd
        by_cases hqp : q = p
        · rw [hqp, update_self] at hd
          rw [hqp]
          exact hd
        · rw [update_of_ne hqp] at hd
          exact hs.cached c q f hd
      · rw [update_of_ne hdc] at hd
        exact hs.cached d q f hd
  | drop c p =>
      cases hstep
      refine inv_tlb hs fun d q f hd => ?_
      by_cases hdc : d = c
      · rw [hdc, update_self] at hd
        by_cases hqp : q = p
        · rw [hqp, update_self] at hd
          cases hd
        · rw [update_of_ne hqp] at hd
          exact hs.cached c q f hd
      · rw [update_of_ne hdc] at hd
        exact hs.cached d q f hd

/-- Where a run begins: no call is under way. -/
structure ReuseReady (s : ReuseSys n) : Prop where
  off : ∀ c, s.point c = .off
  cached : ∀ c p f, s.tlb c p = some f → s.pages p = some f
  once : ∀ p q f, s.pages p = some f → s.pages q = some f → p = q
  used : ∀ p f, s.pages p = some f → s.free f = false ∧ f ≠ 0
  marked : ∀ j f, s.pages (.heap j) = some f → s.heapMap j = true

theorem inv_reuseReady (hs : ReuseReady s) : ReuseInv s := by
  refine ⟨hs.cached, hs.once, hs.used, fun c f hc => ?_, fun c d f hc => ?_, fun c hc => ?_,
    fun c d t hc => ?_, fun j f hj => Or.inl (hs.marked j f hj), fun c a b hc => ?_,
    fun c j hc => ?_, fun c r pa hc => ?_, fun c start count i pa hc => ?_⟩
  all_goals
    rw [hs.off c] at hc
    cases hc

theorem inv_reuseRun {s₀ : ReuseSys n} (hready : ReuseReady s₀)
    (hrun : Runs (reuseStep h) NotHeld s₀ es s) : ReuseInv s :=
  runs_inv ReuseInv (inv_reuseReady hready)
    (fun _ _ _ ht hheld hstep => inv_reuseStep ht hheld hstep) hrun

/-- What a processor translates to is mapped, and so used. -/
theorem inv_notFree (hs : ReuseInv s) (hc : s.tlb c p = some f) : s.free f = false :=
  (hs.used p f (hs.cached c p f hc)).1

/-- **No frame is free that a processor translates to**, in every run in which no entry is cleared
    that another processor holds. -/
theorem reuse_safe {s₀ : ReuseSys n} (hready : ReuseReady s₀)
    (hrun : Runs (reuseStep h) NotHeld s₀ es s) :
    ∀ c p f, s.tlb c p = some f → s.free f = false :=
  fun _ _ _ hc => inv_notFree (inv_reuseRun hready hrun) hc

/-- One processor holds no other's translations. -/
theorem reuse_safe_one {s₀ s : ReuseSys 1} {es : List (ReuseEvent 1)} (hready : ReuseReady s₀)
    (hrun : Runs (reuseStep h) (fun _ _ => True) s₀ es s) :
    ∀ c p f, s.tlb c p = some f → s.free f = false := by
  refine fun c p f hc => inv_notFree (inv_reuseRun hready (runs_mono (fun t e _ => ?_) hrun)) hc
  cases e with
  | run c => exact fun _ _ _ d hd => absurd (Subsingleton.elim d c) hd
  | _ => trivial

/-- The condition is exact: an entry that another processor holds is cleared, and two steps later
    its frame is free. -/
theorem held_then_stale {pa : Frame} (hs : ReuseInv s) (hc : s.point c = .unmap r pa) (hd : d ≠ c)
    (hheld : s.tlb d r.page = some f) : ∃ s₁ s₂, reuseStep h s (.run c) = some s₁ ∧
      reuseStep h s₁ (.run c) = some s₂ ∧ s₂.tlb d r.page = some f ∧ s₂.free f = true := by
  have hpa : pa = f := by
    rw [hs.seen c r pa hc, hs.cached d r.page f hheld]
    rfl
  let s₁ : ReuseSys n := { s with
    pages := update s.pages r.page none
    tlb := update s.tlb c (update (s.tlb c) r.page none)
    point := update s.point c (.give r pa) }
  have h₁ : reuseStep h s (.run c) = some s₁ := by
    rw [reuseStep, reuseRun, hc]
  have hgive : s₁.point c = .give r pa := update_self _ _ _
  have htlb : s₁.tlb d r.page = some f := by
    show update s.tlb c (update (s.tlb c) r.page none) d r.page = some f
    rw [update_of_ne hd]
    exact hheld
  obtain ⟨x, h₂⟩ : ∃ x, reuseStep h s₁ (.run c) =
      some { s₁ with free := update s₁.free pa true, point := update s₁.point c x } := by
    cases r with
    | block base count i =>
        refine ⟨.clear base count i, ?_⟩
        rw [reuseStep, reuseRun, hgive]
    | mapping task m i =>
        refine ⟨(Release.mapping task m (i + 1)).point, ?_⟩
        rw [reuseStep, reuseRun, hgive]
  refine ⟨s₁, _, h₁, h₂, htlb, ?_⟩
  show update s₁.free pa true f = true
  rw [hpa, update_self]

end Translations

/-! ## 5. Page maps -/

/-- The user pages are what the page maps of the tasks translate. -/
def ShowsUser (pmap : Nat → PageMap) (m : VmmState) (pages : Page → Option Frame) : Prop :=
  ∀ task number, number < userPages →
    pages (.user task number) = userPage m.mem (pmap task) number

section PageMaps

variable {own : Nat → Uptr → Option (Nat × Nat)} {pmap : Nat → PageMap} {m : VmmState}
  {pages : Page → Option Frame} {va : Uptr} {f : Frame}

theorem userNumber_lt (hva : va.toNat < 2 ^ 47) : userNumber va < userPages := by
  unfold userNumber userPages
  omega

/-- The step that translates is `vmm_translate`. -/
theorem wp_translate_shows (hm : UserMaps own pmap m) (hshows : ShowsUser pmap m pages)
    (task : Nat) (hva : va.toNat < 2 ^ 47) (haligned : va.toNat % 4096 = 0)
    (hpage : pages (.user task (userNumber va)) = some f) :
    wp (vmmTranslate (pmap task) va) m fun a m' => a.toNat = 4096 * f ∧ m' = m := by
  rw [hshows task _ (userNumber_lt hva)] at hpage
  exact wp_vmmTranslate_user (hm.page task) (hm.small task) hva haligned hpage

/-- The step that clears the entry is `vmm_unmap`. -/
theorem wp_unmap_shows (hm : UserMaps own pmap m) (hshows : ShowsUser pmap m pages)
    (task : Nat) (hva : va.toNat < 2 ^ 47) :
    wp (vmmUnmap (pmap task) va) m fun _ m' => UserMaps own pmap m' ∧
      ShowsUser pmap m' (update pages (.user task (userNumber va)) none) := by
  refine wp_mono (wp_vmmUnmap_user hm task hva) fun _ m' hu => ?_
  obtain ⟨hm', _, hset, _⟩ := hu
  refine ⟨hm', fun k number hn => ?_⟩
  obtain ⟨hsame, hother⟩ := hset k number hn
  by_cases hk : k = task ∧ number = userNumber va
  · rw [hk.1, hk.2, update_self]
    rw [hk.1, hk.2] at hsame
    exact (hsame ⟨rfl, rfl⟩).symm
  · rw [update_of_ne fun he => hk (Page.user.inj he), hother hk]
    exact hshows k number hn

end PageMaps

/-! ## 6. Two processors -/

/-- A heap of four pages, the first and the last of them guard pages. -/
def smallHeap : HeapRegion := ⟨0xFFFF900000000000, 0xFFFF900000004000⟩

/-- Frame 7 is free, and task 0 has frame 9. -/
def twoProcessors : ReuseSys 2 :=
  { pages := fun p => if p = .user 0 0x100 then some 9 else none
    free := fun f => f == 7
    heapMap := fun j => j == 0 || j == 3
    heapLock := none
    mappings := fun task => if task = 0 then [⟨0x100000, 1, 1⟩] else []
    tlb := fun _ _ => none
    point := fun _ => .off }

theorem twoProcessors_ready : ReuseReady twoProcessors := by
  have hone : ∀ p f, twoProcessors.pages p = some f → p = .user 0 0x100 ∧ f = 9 := fun p f hp => by
    change (if p = .user 0 0x100 then some 9 else none) = some f at hp
    split at hp
    · exact ⟨‹_›, (Option.some.inj hp).symm⟩
    · cases hp
  refine ⟨fun _ => rfl, nofun, fun p q f hp hq => ?_, fun p f hp => ?_, fun j f hj => ?_⟩
  · rw [(hone p f hp).1, (hone q f hq).1]
  · rw [(hone p f hp).2]
    decide
  · cases (hone _ f hj).1

/-- The first processor gets a page of the heap and gives it back. -/
def oneHeapPage : List (ReuseEvent 2) :=
  [.lock 0, .alloc 0 1, .take 0 7, .run 0, .run 0, .run 0, .unlock 0, .access 1 (.heap 1), .lock 0,
    .free 0 0xFFFF900000001000 1, .run 0, .run 0, .run 0]

/-- `NotHeld`, computed. -/
def notHeld (s : ReuseSys n) : ReuseEvent n → Bool
  | .run c =>
      match s.point c with
      | .unmap r _ => decide (∀ d, d ≠ c → s.tlb d r.page = none)
      | _ => true
  | _ => true

theorem notHeld_sound {s : ReuseSys n} {e : ReuseEvent n} (he : notHeld s e = true) :
    NotHeld s e := by
  cases e with
  | run c =>
      intro r pa hc
      rw [notHeld, hc] at he
      exact of_decide_eq_true he
  | _ => trivial

/-- The first processor gets a page of the heap, both use it, and the second drops its translation
    before the page is given back; that of another page it keeps. -/
def droppedInTime : List (ReuseEvent 2) :=
  [.access 1 (.user 0 0x100), .lock 0, .alloc 0 1, .take 0 7, .run 0, .run 0, .run 0, .unlock 0,
    .access 0 (.heap 1), .access 1 (.heap 1), .drop 1 (.heap 1), .lock 0,
    .free 0 0xFFFF900000001000 1, .run 0, .run 0, .run 0, .run 0, .unlock 0]

theorem reuse_safe_two : ∃ s,
    Runs (reuseStep smallHeap) NotHeld twoProcessors droppedInTime s ∧
      s.free 7 = true ∧ s.tlb 0 (.heap 1) = none ∧ s.tlb 1 (.heap 1) = none ∧
      s.tlb 1 (.user 0 0x100) = some 9 ∧ ∀ c p f, s.tlb c p = some f → s.free f = false := by
  have hrun : Runs (reuseStep smallHeap) NotHeld twoProcessors droppedInTime _ :=
    runs_mono (fun _ _ => notHeld_sound) (runs_execIf rfl)
  exact ⟨_, hrun, by decide, by decide, by decide, by decide, reuse_safe twoProcessors_ready hrun⟩

/-- `liballoc_free` has no shootdown: the frame is free, and the other processor has it. -/
theorem heap_page_stale : ReuseReady twoProcessors ∧
    ¬∀ es s, Runs (reuseStep smallHeap) (fun _ _ => True) twoProcessors es s →
      ∀ c p f, s.tlb c p = some f → s.free f = false := by
  refine ⟨twoProcessors_ready, fun hall => ?_⟩
  have hrun : Runs (reuseStep smallHeap) (fun _ _ => True) twoProcessors oneHeapPage _ := runs_exec rfl
  have := hall _ _ hrun 1 (.heap 1) 7 (by decide)
  revert this
  decide

/-- `task_munmap` frees before its shootdown. -/
theorem user_page_stale : ∃ s,
    Runs (reuseStep smallHeap) (fun _ _ => True) twoProcessors
      [.access 1 (.user 0 0x100), .munmap 0 0 0x100000 4096, .run 0, .run 0, .run 0] s ∧
      s.tlb 1 (.user 0 0x100) = some 9 ∧ s.free 9 = true := by
  have hrun : Runs (reuseStep smallHeap) (fun _ _ => True) twoProcessors
      [.access 1 (.user 0 0x100), .munmap 0 0 0x100000 4096, .run 0, .run 0, .run 0] _ :=
    runs_exec rfl
  exact ⟨_, hrun, by decide, by decide⟩

end Slightx
