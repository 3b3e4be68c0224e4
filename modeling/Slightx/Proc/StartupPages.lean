/-
  File:      Slightx/Proc/StartupPages.lean
  Subject:   The pages `task_init` maps for the startup data.

  Sources: kernel/proc/task.c, kernel/proc/spawn.c (`spawn_user_task`).

  The region begins 16 MB below the end of the user half, and the stack ends two pages below it.
  Nothing bounds the size that `task_user_startup_info__get_size` adds up.

  * `Started` -- the page map after some rounds of the loop
  * `started_step`, `ends_mapStartup` -- a round keeps it, and so does the loop
  * `startup_inside_iff` -- the pages stay below the stack, and nothing else changes, exactly if the
    size is at most the 4090 pages between the base of the region and the stack
-/
import Slightx.Mem.VmmDestroy
import Slightx.Proc.SpawnChecks
import Slightx.Proc.StartupLayout

namespace Slightx

open Lib

/-! ## 1. The region -/

/-- The number of pages `task_init` maps: `pageCount` in `initStartup`. -/
def startupPages (umem : Mem) (info : StartupInfo) : Nat :=
  (alignSizeUp (taskUserStartupInfoGetSize umem info) MM_VIRT_PAGE_SIZE / MM_VIRT_PAGE_SIZE).toNat

/-- `ustack_size` of the tasks `spawn_user_task` makes. -/
def SPAWN_USTACK_SIZE : Usize := 16 * 1024

/-- Between the startup base and the stack. -/
def InRegion (x : Uptr) : Prop :=
  USER_STARTUP_BASE.toNat ≤ x.toNat ∧ x.toNat < (USER_STACK_TOP - SPAWN_USTACK_SIZE).toNat

/-- A table behind an entry of the kernel's half. -/
def KernelTable (m : Mem) (pmap : PageMap) (u : Uptr) : Prop :=
  ∃ key M g, key < 512 ^ pmap.level.num ∧ 256 ≤ slot key (pmap.level.num - 1) ∧
    M < pmap.level.num ∧ Reach 512 pageKind (pteAt m) key pmap.level.num pmap.directory M u g

/-- The `n` pages are in the region, and nothing changed elsewhere. -/
structure StartupInside (pmap : PageMap) (n : Nat) (s s' : VmmState) : Prop where
  pages : ∀ i, i < n → InRegion (vaddrOf USER_STARTUP_BASE i)
  outside : ∀ x, Canonical pmap.level.num x → ¬ InRegion x →
    resolve s'.mem pmap x = resolve s.mem pmap x
  upper : ∀ i, 256 ≤ i → i < 512 →
    pteAt s'.mem pmap.directory i = pteAt s.mem pmap.directory i
  shared : ∀ u, KernelTable s.mem pmap u → ∀ i, i < 512 → pteAt s'.mem u i = pteAt s.mem u i

/-- The page number of round `i`. -/
abbrev startupKey (pmap : PageMap) (i : Nat) : Nat :=
  pageNumber pmap.level.num (vaddrOf USER_STARTUP_BASE i)

/-! ## 2. The loop -/

/-- The page map after `k` rounds: the pages of the rounds go to frames that were free. -/
structure Started (own : Uptr → Option (Nat × Nat)) (pmap : PageMap) (s : VmmState) (k : Nat)
    (own' : Uptr → Option (Nat × Nat)) (t : VmmState) : Prop where
  map : IsPageMap own' pmap t
  keep : ∀ u L p, own u = some (L, p) → own' u = some (L, p)
  free : t.free <:+ s.free
  frames : s.free.length ≤ t.free.length + 5 * k
  here : ∀ i, i < k →
    ∃ f ∈ s.free, userPage t.mem pmap (startupKey pmap i) = some (f.toNat / 4096)
  other : ∀ key, key < 512 ^ pmap.level.num → (∀ i, i < k → key ≠ startupKey pmap i) →
    userPage t.mem pmap key = userPage s.mem pmap key
  upper : k ≤ 4096 → ∀ i, 256 ≤ i → i < 512 →
    pteAt t.mem pmap.directory i = pteAt s.mem pmap.directory i
  shared : k ≤ 4096 → ∀ u L q, own u = some (L, q) → L < pmap.level.num →
    256 * 512 ^ (pmap.level.num - 1 - L) ≤ q → ∀ i, i < 512 → pteAt t.mem u i = pteAt s.mem u i

section Loop

variable {own own' own₁ : Uptr → Option (Nat × Nat)} {pmap : PageMap} {s t t' : VmmState}
  {k i : Nat} {f : Uptr} {rest : List Uptr} {pages1gb : Bool}

theorem started_nil (h : IsPageMap own pmap s) : Started own pmap s 0 own s :=
  ⟨h, fun _ _ _ hu => hu, List.suffix_refl _, Nat.le_refl _,
    fun _ hi => absurd hi (Nat.not_lt_zero _), fun _ _ _ => rfl, fun _ _ _ _ => rfl,
    fun _ _ _ _ _ _ _ _ _ => rfl⟩

/-- The frame is zeroed once more. -/
theorem fill_twice (m : Mem) (a n : Nat) (b : Byte) : fill (fill m a n b) a n b = fill m a n b := by
  funext x
  unfold fill
  split
  · rfl
  · rfl

theorem startupFlags_addr :
    (MM_PT_FLAG_VALID ||| MM_PT_FLAG_USER ||| MM_PT_FLAG_NX) &&& 0x000FFFFFFFFFF000 = 0#64 := by
  decide

theorem startup_aligned (i : Nat) : (vaddrOf USER_STARTUP_BASE i).toNat % 4096 = 0 := by
  unfold vaddrOf
  rw [BitVec.toNat_add, BitVec.toNat_mul, BitVec.toNat_ofNat,
    show MM_VIRT_PAGE_SIZE.toNat = 4096 from rfl,
    show USER_STARTUP_BASE.toNat = 0x7FFFFF000000 from rfl]
  omega

/-- The rounds up to the end of the user half. -/
theorem startup_low (hi : i < 4096) :
    (vaddrOf USER_STARTUP_BASE i).toNat = 0x7FFFFF000000 + 4096 * i := by
  have hbase : USER_STARTUP_BASE.toNat = 0x7FFFFF000000 := rfl
  rw [toNat_vaddrOf _ _ (by omega), hbase]

theorem lacks_four (hr : MapRoot own pmap) (m : Mem) (key : Nat) (t : Uptr) :
    lacks m key pmap.level.num t ≤ 4 := by
  rcases mapRoot_num hr with hl | hl
  · rw [hl]
    exact Nat.le_succ_of_le lack_lt
  · rw [hl]
    exact lack_lt

/-- The page map after a frame was taken and zeroed. -/
theorem isPageMap_taken (h : IsPageMap own pmap t) (hfree : t.free = f :: rest) :
    IsPageMap own pmap (t.taken f rest) := by
  have hnodup := h.inv.nodup
  rw [hfree] at hnodup
  refine isPageMap_same h (fun u hu j hj => taken_pte h.inv hfree hu hj) (fun g hg => ?_)
    (List.nodup_cons.mp hnodup).2
  exact h.inv.free g (by rw [hfree]; exact List.mem_cons_of_mem _ hg)

/-- The digits of a page of the user half are below those of the kernel's half. -/
theorem user_prefix {top L q key : Nat} (ht : top = 4 ∨ top = 5) (hkey : key < userPages)
    (hL : L < top) (hq : 256 * 512 ^ (top - 1 - L) ≤ q) : q ≠ key / 512 ^ L := by
  have hprod : 256 * 512 ^ (top - 1 - L) * 512 ^ L = 256 * 512 ^ (top - 1) := by
    rw [Nat.mul_assoc, ← Nat.pow_add, Nat.sub_add_cancel (by omega)]
  have hlarge : userPages ≤ 256 * 512 ^ (top - 1) := by
    rcases ht with rfl | rfl
    · decide
    · decide
  have hdiv : key / 512 ^ L < 256 * 512 ^ (top - 1 - L) := by
    refine Nat.div_lt_of_lt_mul ?_
    rw [Nat.mul_comm, hprod]
    omega
  omega

/-- One more page: what `vmm_map` did to the page map of `k` rounds. -/
theorem started_put (h : Started own pmap s k own' t) (hfree : t.free = f :: rest)
    (hp : Put pmap (vaddrOf USER_STARTUP_BASE k) f
      (MM_PT_FLAG_VALID ||| MM_PT_FLAG_USER ||| MM_PT_FLAG_NX) own' (t.taken f rest) own₁ t' 1) :
    Started own pmap s (k + 1) own₁ t' := by
  have hmem : f ∈ t.free := by rw [hfree]; exact List.mem_cons_self
  have hframe := (h.map.inv.free f hmem).1
  have htaken := isPageMap_taken h.map hfree
  have hnum := mapRoot_num h.map.root
  have ha : MapArgs (vaddrOf USER_STARTUP_BASE k) f
      (MM_PT_FLAG_VALID ||| MM_PT_FLAG_USER ||| MM_PT_FLAG_NX) MM_PAGE_4KB :=
    ⟨Or.inl rfl, startup_aligned k, hframe.aligned, hframe.low, startupFlags_addr⟩
  have hleaf := leafArgs_of_mapArgs (L := 1) ha (by omega) rfl
  obtain ⟨hmap, hmaps⟩ := isPageMap_put htaken hleaf ha.va_aligned hp
  have hframes := put_frames hp
  have hroot : ∀ {key}, key < 512 ^ pmap.level.num →
      own' pmap.directory = some (pmap.level.num, key / 512 ^ pmap.level.num) :=
    fun hkey => mapRoot_label h.map.root hkey
  have hlook : ∀ {key}, key < 512 ^ pmap.level.num →
      userPage (t.taken f rest).mem pmap key = userPage t.mem pmap key := fun hkey =>
    look_same h.map.inv (fun u hu j hj => taken_pte h.map.inv hfree hu hj) (hroot hkey)
  -- the pages of the other rounds, and those of no round
  have hother : ∀ {key}, key < 512 ^ pmap.level.num → key ≠ startupKey pmap k →
      userPage t'.mem pmap key = userPage t.mem pmap key := by
    intro key hkey hne
    have hkeyk : startupKey pmap k = pageNumber pmap.level.num (vaddrOf USER_STARTUP_BASE k) := rfl
    rw [← hlook hkey]
    refine hmaps.other _ _ key (hroot hkey) fun hin => hne ?_
    simp only [Nat.sub_self, Nat.pow_zero] at hin
    omega
  have hsuffix : rest <:+ t.free := by rw [hfree]; exact List.suffix_cons f rest
  refine ⟨hmap, fun u L p hu => hmaps.grow.keep u L p (h.keep u L p hu),
    hmaps.grow.suffix.trans (hsuffix.trans h.free), ?_, fun i hi => ?_, fun key hkey hne => ?_,
    fun hk i hlo hhi => ?_, fun hk u L q hu hL hq i hi => ?_⟩
  · have hlen := h.frames
    rw [hfree, List.length_cons] at hlen
    have hrest : (t.taken f rest).free.length = rest.length := rfl
    omega
  · by_cases hsame : startupKey pmap i = startupKey pmap k
    · refine ⟨f, h.free.subset hmem, ?_⟩
      rw [hsame]
      refine (hmaps.here _ (hroot (pageNumber_lt _ _)) (Nat.le_refl _) (by omega)).trans ?_
      rw [Nat.add_sub_cancel]
    · rw [hother (pageNumber_lt _ _) hsame]
      rcases Nat.lt_succ_iff_lt_or_eq.mp hi with hi | rfl
      · exact h.here i hi
      · exact absurd rfl hsame
  · rw [hother hkey (hne k (Nat.lt_succ_self k))]
    exact h.other key hkey fun i hi => hne i (Nat.lt_succ_of_lt hi)
  · have hva := startup_low (i := k) (by omega)
    have hslot : topSlot pmap (vaddrOf USER_STARTUP_BASE k) < 256 :=
      topSlot_lower hnum (by rcases hnum with hl | hl <;> rw [hl] <;> omega)
    have htop := (topMapped_put htaken.inv htaken.root hleaf hp).top
    rw [htop.off _ _ i htaken.root.root hhi fun hsame => by omega,
      taken_pte h.map.inv hfree (by rw [h.map.root.root]; exact Option.some_ne_none _) hhi]
    exact h.upper (by omega) i hlo hhi
  · have hva := startup_low (i := k) (by omega)
    have hlow : pageNumber pmap.level.num (vaddrOf USER_STARTUP_BASE k) < userPages :=
      user_key hnum (by omega)
    have hu' := h.keep u L q hu
    have hne : own' u ≠ none := by rw [hu']; exact Option.some_ne_none _
    rw [put_off htaken.inv htaken.root hleaf hp (h.map.inv.frame u L q hu')
      (fun hin => hne (htaken.inv.free u hin).2) (fun L' q' hlab => ?_) hi,
      taken_pte h.map.inv hfree hne hi]
    · exact h.shared (by omega) u L q hu hL hq i hi
    · rw [hu'] at hlab
      cases hlab
      exact user_prefix hnum hlow hL hq

/-- **A round maps one more page**, or there were not five frames for each round. -/
theorem started_step (h : Started own pmap s k own' t) : ends (do
      let paddr ← pmmAllocFrame
      modify fun s => { s with mem := fill s.mem paddr.toNat 4096 0 }
      vmmMap pages1gb pmap (vaddrOf USER_STARTUP_BASE k) paddr
        (MM_PT_FLAG_VALID ||| MM_PT_FLAG_USER ||| MM_PT_FLAG_NX) MM_PAGE_4KB) t
    (fun _ t' => ∃ own₁, Started own pmap s (k + 1) own₁ t')
    (fun _ => s.free.length < 5 * (k + 1)) := by
  have hframes := h.frames
  cases hfree : t.free with
  | nil =>
      rw [hfree, List.length_nil] at hframes
      refine (ends_of_stops (stops_bind_left (pmmAllocFrame_stops hfree))).mpr ?_
      omega
  | cons f rest =>
      rw [hfree, List.length_cons] at hframes
      have hmem : f ∈ t.free := by rw [hfree]; exact List.mem_cons_self
      have hframe := (h.map.inv.free f hmem).1
      have htaken := isPageMap_taken h.map hfree
      have hzeroed : { t.taken f rest with mem := fill (t.taken f rest).mem f.toNat 4096 0 } =
          t.taken f rest := by
        unfold VmmState.taken
        rw [fill_twice]
      rw [ends_bind, ends_of_eq (pmmAllocFrame_cons hfree), ends_bind, ends_modify, hzeroed]
      have ha : MapArgs (vaddrOf USER_STARTUP_BASE k) f
          (MM_PT_FLAG_VALID ||| MM_PT_FLAG_USER ||| MM_PT_FLAG_NX) MM_PAGE_4KB :=
        ⟨Or.inl rfl, startup_aligned k, hframe.aligned, hframe.low, startupFlags_addr⟩
      refine ends_mono (ends_vmmMap_4KB pages1gb ha htaken.inv htaken.root) (fun _ t' hp => ?_)
        fun e he => ?_
      · obtain ⟨own₁, hp⟩ := hp
        exact ⟨own₁, started_put h hfree hp.put⟩
      · obtain ⟨-, hshort⟩ := he
        have hlack := lacks_four htaken.root (t.taken f rest).mem
          (pageNumber pmap.level.num (vaddrOf USER_STARTUP_BASE k)) pmap.directory
        have hlen : (t.taken f rest).free.length = rest.length := rfl
        omega

/-- **The loop**: it ends, with five frames for each page. -/
theorem ends_mapStartup (h : IsPageMap own pmap s) (n : Nat) :
    ends (mapStartup pages1gb pmap n) s (fun _ t => ∃ own', Started own pmap s n own' t)
      fun _ => s.free.length < 5 * n := by
  unfold mapStartup
  refine ends_forUp (fun k t => ∃ own', Started own pmap s k own' t) ⟨own, started_nil h⟩
    fun k t hk ht => ?_
  obtain ⟨own', ht⟩ := ht
  exact ends_mono (started_step ht) (fun _ _ h => h) fun _ he => by omega

end Loop

/-! ## 3. When the pages stay in the region -/

/-- The number of pages against the sum of the rounded sizes. -/
theorem startupPages_le (umem : Mem) (info : StartupInfo) : startupPages umem info ≤ 4090 ↔
    totalRounded (startupSizes umem info) % 2 ^ 64 ≤ 4090 * 4096 ∨
      2 ^ 64 - 4096 < totalRounded (startupSizes umem info) % 2 ^ 64 := by
  have hpage : MM_VIRT_PAGE_SIZE.toNat = 4096 := rfl
  have hround : (alignSizeUp (taskUserStartupInfoGetSize umem info) MM_VIRT_PAGE_SIZE).toNat = _ :=
    toNat_alignSizeUp_gap (by decide)
  have hlt := Nat.mod_lt (totalRounded (startupSizes umem info)) (Nat.two_pow_pos 64)
  rw [toNat_getSize_mod, hpage] at hround
  unfold startupPages
  rw [BitVec.toNat_udiv, hround, hpage]
  unfold gap
  split
  · omega
  · omega

section Inside

variable {own own' : Uptr → Option (Nat × Nat)} {pmap : PageMap} {s s' : VmmState} {n i : Nat}
  {x u : Uptr} {umem : Mem} {info : StartupInfo} {pages1gb : Bool}

theorem inRegion_iff (x : Uptr) :
    InRegion x ↔ 0x7FFFFF000000 ≤ x.toNat ∧ x.toNat < 0x7FFFFF000000 + 4090 * 4096 := Iff.rfl

/-- The pages below the stack, and no others, are in the region. -/
theorem inRegion_pages : (∀ i, i < n → InRegion (vaddrOf USER_STARTUP_BASE i)) ↔ n ≤ 4090 := by
  constructor
  · intro h
    by_contra hn
    have hlast := (inRegion_iff _).mp (h 4090 (by omega))
    rw [startup_low (by omega)] at hlast
    omega
  · intro hn i hi
    rw [inRegion_iff, startup_low (by omega)]
    omega

/-- An address outside the region is on no page of a round. -/
theorem key_outside (hnum : pmap.level.num = 4 ∨ pmap.level.num = 5)
    (hx : Canonical pmap.level.num x) (hout : ¬ InRegion x) (hi : i < 4090) :
    pageNumber pmap.level.num x ≠ startupKey pmap i := by
  have hva := startup_low (i := i) (by omega)
  have hcanonical : Canonical pmap.level.num (vaddrOf USER_STARTUP_BASE i) := by
    refine Or.inl ?_
    rcases hnum with hl | hl
    all_goals rw [hl]
    all_goals omega
  have hsame := pageNumber_same (L := 1) hnum (Or.inl rfl) hcanonical hx
  simp only [Nat.sub_self, Nat.pow_zero, Nat.div_one, pageBytes] at hsame
  intro hkey
  have hpage := hsame.mp hkey
  rw [hva] at hpage
  rw [inRegion_iff] at hout
  omega

/-- The label of a table of the kernel's half. -/
theorem kernelTable_label (h : IsPageMap own pmap s) (hu : KernelTable s.mem pmap u) :
    ∃ L q, own u = some (L, q) ∧ L < pmap.level.num ∧
      256 * 512 ^ (pmap.level.num - 1 - L) ≤ q := by
  obtain ⟨key, M, g, hkey, hslot, hM, hreach⟩ := hu
  have hlabel := reach_label (by decide) h.inv.labelled (mapRoot_label h.root hkey) hreach
  refine ⟨M, key / 512 ^ M, hlabel, hM, ?_⟩
  have hdigit : 256 ≤ key / 512 ^ (pmap.level.num - 1) := Nat.le_trans hslot (Nat.mod_le _ _)
  have hprod : 256 * 512 ^ (pmap.level.num - 1 - M) * 512 ^ M =
      256 * 512 ^ (pmap.level.num - 1) := by
    rw [Nat.mul_assoc, ← Nat.pow_add, Nat.sub_add_cancel (by omega)]
  rw [Nat.le_div_iff_mul_le (Nat.pow_pos (by decide)), hprod]
  rwa [Nat.le_div_iff_mul_le (Nat.pow_pos (by decide))] at hdigit

theorem inside_started (h : IsPageMap own pmap s) (hs : Started own pmap s n own' s')
    (hn : n ≤ 4090) : StartupInside pmap n s s' := by
  refine ⟨inRegion_pages.mpr hn, fun x hx hout => ?_, hs.upper (by omega), fun u hu => ?_⟩
  · refine resolve_congr (mapRoot_num h.root) (hs.other _ (pageNumber_lt _ _) fun i hi => ?_)
    exact key_outside (mapRoot_num h.root) hx hout (by omega)
  · obtain ⟨L, q, hlab, hL, hq⟩ := kernelTable_label h hu
    exact hs.shared (by omega) u L q hlab hL hq

/-- **The startup pages stay below the stack, and nothing outside their region changes, exactly if
    the rounded sizes add up to no more than the region.** The sum is taken modulo 2^64. -/
theorem startup_inside_iff (h : IsPageMap own pmap s)
    (hrun : mapStartup pages1gb pmap (startupPages umem info) s = .ok ((), s')) :
    StartupInside pmap (startupPages umem info) s s' ↔
      totalRounded (startupSizes umem info) % 2 ^ 64 ≤ 4090 * 4096 ∨
        2 ^ 64 - 4096 < totalRounded (startupSizes umem info) % 2 ^ 64 := by
  rw [← startupPages_le]
  constructor
  · exact fun hinside => inRegion_pages.mp hinside.pages
  · intro hn
    obtain ⟨own', hs⟩ := ends_ok (ends_mapStartup h _) hrun
    exact inside_started h hs hn

end Inside

/-- The startup data of one short argument is on one page. -/
theorem startup_inside_iff_one : ∃ s', mapStartup true zeroedMap
      (startupPages oneArgument (startupInfoAt oneArgument 0x1000)) zeroedState = .ok ((), s') ∧
    StartupInside zeroedMap (startupPages oneArgument (startupInfoAt oneArgument 0x1000))
      zeroedState s' := by
  have hmap := isPageMap_empty zeroedMap_empty
  have hpages : startupPages oneArgument (startupInfoAt oneArgument 0x1000) = 1 := by
    decide +kernel
  have htotal :
      totalRounded (startupSizes oneArgument (startupInfoAt oneArgument 0x1000)) = 80 := by
    decide +kernel
  obtain ⟨_, s', hrun, -⟩ := wp_of_ends (ends_mono (ends_mapStartup hmap
    (startupPages oneArgument (startupInfoAt oneArgument 0x1000))) (fun _ _ h => h) fun _ hfew => by
      rw [hpages] at hfew
      exact absurd hfew (by decide))
  exact ⟨s', hrun, (startup_inside_iff hmap hrun).mpr (Or.inl (by rw [htotal]; decide))⟩

/-- One argument of 16 MB, in memory that is zero elsewhere. -/
def longArgument : Mem :=
  store64 (store64 (store64 (store64 (fun _ => 0) 0x1000 0x2000) 0x1008 1) 0x2000 0x20000000) 0x2008
    0x1000000

/-- Zeroed memory with `n` free frames past the directory. -/
def framesFrom (n : Nat) : VmmState :=
  { mem := fun _ => 0
    free := (List.range n).map fun i => BitVec.ofNat 64 (4096 * (i + 2)) }

theorem framesFrom_length (n : Nat) : (framesFrom n).free.length = n := by
  rw [framesFrom, List.length_map, List.length_range]

theorem framesFrom_empty {n : Nat} (hn : n < 2 ^ 32) : EmptyMap zeroedMap (framesFrom n) := by
  have hto : ∀ i, i < n → (BitVec.ofNat 64 (4096 * (i + 2)) : Uptr).toNat = 4096 * (i + 2) :=
    fun i hi => ofNat_toNat_lt (by omega)
  have hdir : zeroedMap.directory.toNat = 4096 := rfl
  refine ⟨Or.inl rfl, ⟨rfl, by rw [hdir]; decide⟩, fun i _ => load64_zero _, fun f hf => ?_, ?_⟩
  · obtain ⟨i, hi, rfl⟩ := List.mem_map.mp hf
    have hi := List.mem_range.mp hi
    have haddr := hto i hi
    refine ⟨⟨by rw [haddr]; omega, by rw [haddr]; omega⟩, fun hsame => ?_⟩
    have hnat := congrArg BitVec.toNat hsame
    rw [haddr, hdir] at hnat
    omega
  · refine List.Nodup.map_on (fun i hi j hj he => ?_) List.nodup_range
    have hnat := congrArg BitVec.toNat he
    rw [hto i (List.mem_range.mp hi), hto j (List.mem_range.mp hj)] at hnat
    omega

/-- The lowest page of the stack. -/
abbrev stackPage : Uptr := USER_STACK_TOP - SPAWN_USTACK_SIZE

/-- More pages than there are below the stack: the lowest one of the stack is replaced, and a
    page of the kernel's half is mapped. -/
theorem over_stack {s s' : VmmState} {k : Nat} (hk : 4096 < k)
    {own' : Uptr → Option (Nat × Nat)} {own : Uptr → Option (Nat × Nat)}
    (hs : Started own zeroedMap s k own' s') (hfree : ∀ f ∈ s.free, f.toNat < 0x40000000) :
    resolve s'.mem zeroedMap stackPage ≠ some 0x40000000 ∧
    ptePresent (pteAt s'.mem zeroedMap.directory 256) = true := by
  have hnum : zeroedMap.level.num = 4 := rfl
  constructor
  · obtain ⟨f, hf, hpage⟩ := hs.here 4090 (by omega)
    have hsame : vaddrOf USER_STARTUP_BASE 4090 = stackPage := by decide
    have hbelow := hfree f hf
    have hzero : (stackPage : Uptr).toNat % 4096 = 0 := by decide
    rw [startupKey, hsame, userPage] at hpage
    rw [resolve_eq _ (Or.inl hnum), hpage, hzero]
    intro hbad
    have hbad : 4096 * (f.toNat / 4096) + 0 = 0x40000000 := Option.some.inj hbad
    omega
  · obtain ⟨f, -, hpage⟩ := hs.here 4096 (by omega)
    by_contra hp
    rw [Bool.not_eq_true] at hp
    have hslot : slot (startupKey zeroedMap 4096) 3 = 256 := by decide
    rw [userPage, hnum, view_absent (pageKind_absent (by rw [hslot]; exact hp))] at hpage
    cases hpage

/-- With five frames for each page the loop ends. -/
theorem mapStartup_frames {s : VmmState} {k : Nat} {own : Uptr → Option (Nat × Nat)}
    (hmap : IsPageMap own zeroedMap s) (hk : 5 * k ≤ s.free.length) : ∃ s' own',
    mapStartup true zeroedMap k s = .ok ((), s') ∧ Started own zeroedMap s k own' s' := by
  obtain ⟨_, s', hrun, own', hs⟩ := wp_of_ends (ends_mono (@ends_mapStartup _ _ _ true hmap k)
    (fun _ _ h => h) fun _ hfew => by omega)
  exact ⟨s', own', hrun, hs⟩

/-- The lowest page of the stack, mapped in an empty page map. -/
theorem wp_stackMapped {n : Nat} (hn : n < 0x30000) (hfour : 4 ≤ n) :
    wp (vmmMap true zeroedMap stackPage 0x40000000 (MM_PT_FLAG_WRITE ||| MM_PT_FLAG_USER)
      MM_PAGE_4KB) (framesFrom n) fun _ s => (∃ own, IsPageMap own zeroedMap s) ∧
        resolve s.mem zeroedMap stackPage = some 0x40000000 ∧
        pteAt s.mem zeroedMap.directory 256 = 0 ∧
        (∀ f ∈ s.free, f.toNat < 0x40000000) ∧ n ≤ s.free.length + 3 := by
  have hargs : MapArgs stackPage 0x40000000 (MM_PT_FLAG_WRITE ||| MM_PT_FLAG_USER) MM_PAGE_4KB :=
    ⟨Or.inl rfl, rfl, rfl, by simp, rfl⟩
  have hleaf := leafArgs_of_leafLevel (Or.inl ⟨rfl, rfl⟩) hargs
  have hcanon : Canonical zeroedMap.level.num stackPage := Or.inl (by decide)
  have hempty := framesFrom_empty (n := n) (by omega)
  have hmap := isPageMap_empty hempty
  have hframes : 4 ≤ (framesFrom n).free.length := by rwa [framesFrom_length]
  refine wp_mono (wp_and (wp_vmmMap_4KB true hargs hmap.inv hmap.root hframes)
    (wp_vmmMap_resolve hmap hargs hcanon hframes)) fun _ s hs => ?_
  obtain ⟨⟨own, hput⟩, hpage, hresolve⟩ := hs
  have hgrow := leads_put hmap.inv hmap.root hleaf hput
  have htop := (topMapped_put hmap.inv hmap.root hleaf hput).top
  have hused := put_frames hput
  refine ⟨hpage, ?_, ?_, fun f hf => ?_, ?_⟩
  · rw [hresolve _ hcanon, mapRange, if_pos (by decide)]
    rfl
  · exact (htop.off _ _ 256 hmap.root.root (by decide) fun hsame =>
      absurd hsame.2 (by decide)).trans (hempty.empty 256 (by decide))
  · obtain ⟨i, hi, rfl⟩ := List.mem_map.mp (hgrow.suffix.subset hf)
    have hi := List.mem_range.mp hi
    rw [ofNat_toNat_lt (by omega)]
    omega
  · rw [framesFrom_length] at hused
    have hnum : zeroedMap.level.num = 4 := rfl
    omega

/-- The checks of `sysc_spawn` let the long argument pass: a page of the stack is replaced. -/
theorem startup_over_stack : ∃ log s s',
    spawnChecks longArgument 0x400000 4096 0x1000 [] = .ok (true, log) ∧
    vmmMap true zeroedMap stackPage 0x40000000 (MM_PT_FLAG_WRITE ||| MM_PT_FLAG_USER) MM_PAGE_4KB
      (framesFrom 20488) = .ok ((), s) ∧
    mapStartup true zeroedMap (startupPages longArgument (startupInfoAt longArgument 0x1000)) s =
      .ok ((), s') ∧
    resolve s.mem zeroedMap stackPage = some 0x40000000 ∧
    resolve s'.mem zeroedMap stackPage ≠ some 0x40000000 ∧
    pteAt s.mem zeroedMap.directory 256 = 0 ∧
    ptePresent (pteAt s'.mem zeroedMap.directory 256) = true ∧
    ¬ StartupInside zeroedMap (startupPages longArgument (startupInfoAt longArgument 0x1000))
      s s' := by
  have hpages : startupPages longArgument (startupInfoAt longArgument 0x1000) = 4097 := by
    decide +kernel
  have hargs : StrvChecked longArgument (startupInfoAt longArgument 0x1000).args := by
    refine ⟨by decide +kernel, fun i hi => ?_⟩
    have hcount : (startupInfoAt longArgument 0x1000).args.count.toNat = 1 := by decide +kernel
    obtain rfl : i = 0 := by omega
    decide +kernel
  have henvvars : StrvChecked longArgument (startupInfoAt longArgument 0x1000).envvars := by
    have hcount : (startupInfoAt longArgument 0x1000).envvars.count.toNat = 0 := by decide +kernel
    exact ⟨by decide +kernel, fun i hi => by omega⟩
  obtain ⟨log, hlog⟩ := @spawnChecks_passes _ 0x400000 0x1000 4096 (by decide) (by decide) hargs
    henvvars
  rw [hpages]
  obtain ⟨_, s, hmapped, ⟨own, hmap⟩, hstack, hempty, hfree, hlen⟩ :=
    @wp_stackMapped 20488 (by decide) (by decide)
  obtain ⟨s', own', hrun, hs⟩ := mapStartup_frames (k := 4097) hmap
    (Nat.le_of_add_le_add_right (b := 3) hlen)
  obtain ⟨hreplaced, hpresent⟩ := over_stack (by decide) hs hfree
  refine ⟨log, s, s', hlog, hmapped, hrun, hstack, hreplaced, hempty, hpresent, fun hinside => ?_⟩
  exact absurd (inRegion_pages.mp hinside.pages) (by decide)

end Slightx
