/-
  File:      Slightx/Mem/VmmMap.lean
  Subject:   A page map as a partial function on addresses.

  Through `pageView` the tables are partial functions from page numbers to page numbers.
  `mapRange` and `unmapRange` are what mapping and unmapping mean for such a function:

  * `wp_vmmMap`, `wp_vmmUnmap_cleared` -- what the calls do to the pages;
  * `vmm_refines` -- in every state a run from an empty directory reaches, they do to the addresses
    what the abstract operations do.
-/
import Slightx.Mem.VmmView

namespace Slightx

open Lib

/-! ## 1. Pages -/

/-- The page number `key` is mapped to by the leaf. -/
def Hit.page (h : Hit) (key : Nat) : Nat :=
  h.entry.toNat % 2 ^ 52 / pageBytes h.level * 512 ^ (h.level - 1) + key % 512 ^ (h.level - 1)

def pageView : View Nat := ⟨Hit.page, fun _ _ _ => rfl⟩

section Split

variable {K j key : Nat} {e : U64}

/-- The address bits of a piece. -/
theorem splitEntry_addr (hK : K = 1 ∨ K = 2) (hp : ptePresent e = true) (hl : pteLarge e = true)
    (hplain : Plain (K + 1) e) (hj : j < 512) :
    (splitEntry K e j).toNat % 2 ^ 52 / 4096 =
      e.toNat % 2 ^ 52 / 4096 + j * 512 ^ (K - 1) := by
  have hpage := page_or (a := (e &&& MM_PT_PADDR_MASK) + BitVec.ofNat 64 j * splitSize K)
    (splitFlags_addr e K)
  rw [toNat_splitBase e hK hj] at hpage
  obtain ⟨hlow, haligned⟩ := hplain hp (Or.inr hl)
  rcases hK with rfl | rfl
  all_goals simp only [pageBytes] at *
  all_goals unfold splitEntry
  all_goals omega

/-- A piece maps its pages where the large page mapped them. -/
theorem splitOk_page (h : Plain (K + 1) e) : SplitOk pageView K e := by
  intro hp hl hK key
  have haddr := splitEntry_addr hK hp hl h (slot_lt key (K - 1))
  obtain ⟨hlow, haligned⟩ := h hp (Or.inr hl)
  rcases hK with rfl | rfl
  all_goals simp only [pageView, Hit.page, Hit.leaf, pageBytes, slot] at *
  all_goals omega

theorem splitEntry_plain (hK : K = 1 ∨ K = 2) (hp : ptePresent e = true)
    (hl : pteLarge e = true) (hplain : Plain (K + 1) e) (hj : j < 512) :
    Plain K (splitEntry K e j) := by
  have haddr := splitEntry_addr hK hp hl hplain hj
  obtain ⟨hlow, haligned⟩ := hplain hp (Or.inr hl)
  intro _ _
  rcases hK with rfl | rfl
  all_goals simp only [pageBytes] at *
  all_goals omega

end Split

theorem plain_isTable {K : Nat} {e c : U64} (h : IsTable e c) (hK : K ≠ 0) : Plain (K + 1) e := by
  intro _ hleaf
  rcases hleaf with h1 | hl
  · omega
  · rw [h.small] at hl
    cases hl

theorem plain_inherited : Inherited Plain := by
  refine ⟨fun K c tf hK hc htf => ?_, fun K e c hK he _ => ?_, fun L hp => ?_,
    fun K e j hp hl hK hj h => ?_⟩
  · exact plain_isTable (isTable_link hc htf) hK
  · exact plain_isTable (isTable_user he) hK
  · exact absurd hp (by decide)
  · exact splitEntry_plain hK hp hl h hj

/-- The page a leaf maps its pages to. -/
theorem leafPte_page_read {pa flags : U64} {vpn key L : Nat} (ha : LeafArgs pa flags L)
    (hv : vpn % 512 ^ (L - 1) = 0) (hlo : vpn ≤ key) (hhi : key < vpn + 512 ^ (L - 1)) :
    pageView.read (.leaf L (leafPte pa flags L)) key = pa.toNat / 4096 + key - vpn := by
  have hpage := leafPte_page ha
  have halign := ha.aligned
  rcases ha.level with rfl | rfl | rfl
  all_goals simp only [pageView, Hit.page, Hit.leaf, pageBytes] at *
  all_goals omega

/-! ## 2. `vmm_map` -/

/-- The frames a call may take from the page allocator. -/
def mapFrames (pages1gb : Bool) (size : Usize) : Nat :=
  if size = MM_PAGE_1GB ∧ pages1gb = false then 1539 else 4

/-- The state is a page map, whose tables `own` labels. -/
structure IsPageMap (own : Uptr → Option (Nat × Nat)) (pmap : PageMap) (s : VmmState) : Prop where
  inv : VmmInv own s
  plain : Entries Plain own s
  root : MapRoot own pmap

section Program

variable {pmap : PageMap} {va pa flags : U64} {own own' : Uptr → Option (Nat × Nat)}
  {s s' : VmmState} {L : Nat}

/-- The pages of a range go to those from `pa` on. -/
abbrev MapsPages (pmap : PageMap) (va pa : U64) (n : Nat) (own own' : Uptr → Option (Nat × Nat))
    (s s' : VmmState) : Prop :=
  Maps pageView own own' s s' pmap.level.num pmap.directory (pageNumber pmap.level.num va) n
    fun key => pa.toNat / 4096 + key - pageNumber pmap.level.num va

theorem isPageMap_put (h : IsPageMap own pmap s) (ha : LeafArgs pa flags L)
    (hv : va.toNat % pageBytes L = 0) (hp : Put pmap va pa flags own s own' s' L) :
    IsPageMap own' pmap s' ∧ MapsPages pmap va pa (512 ^ (L - 1)) own own' s s' := by
  have hlev := ha.level
  have hmaps := maps_put plain_inherited h.inv h.plain h.root ha hv
    (fun M e _ he => splitOk_page he) (fun key => leafPte_page_read ha
      (pageNumber_aligned (mapRoot_num h.root) hlev hv)) hp
  exact ⟨⟨hmaps.grow.inv, entries_put plain_inherited h.inv h.plain h.root (by omega)
    (leafPte_plain ha) hp, mapRoot_grow h.root hmaps.grow⟩, hmaps⟩

/-- The end of a call for 1 GB maps the first 2 MB. -/
theorem isPageMap_closed {pml3 : Uptr} (h : IsPageMap own pmap s)
    (ha : MapArgs va pa flags MM_PAGE_1GB)
    (hs : Stage own s pmap.level.num pmap.directory (pageNumber pmap.level.num va) 3 pml3)
    (hc : Closed pmap va pa flags pml3 own s own' s') :
    IsPageMap own' pmap s' ∧ MapsPages pmap va pa 512 own own' s s' := by
  have hva : va.toNat % 2 ^ 30 = 0 := ha.va_aligned
  have hleaf := leafArgs_closed ha
  have ht := stage_label h.inv hs
  have hi := slot_lt (pageNumber pmap.level.num va) 2
  have hvpn : pageNumber pmap.level.num va % 512 = 0 :=
    pageNumber_aligned (mapRoot_num h.root) hleaf.level (by simp only [pageBytes]; omega)
  have hmaps := maps_closed h.inv h.root ha hs (splitOk_page (h.plain _ _ _ _ ht hi))
    (fun key => leafPte_page_read hleaf hvpn) hc
  obtain ⟨s₁, c, hd, rfl⟩ := hc
  have hentries := inherited_descended plain_inherited h.inv h.plain ht (by omega) hi
    (tableFlags_way flags) hd
  have hstage := stage_descended h.inv hs (by omega) hd
  exact ⟨⟨hmaps.grow.inv, entries_stored hentries hd.grow.inv (stage_label hd.grow.inv hstage)
    (slot_lt _ 1) (leafPte_plain hleaf), mapRoot_grow h.root hmaps.grow⟩, hmaps⟩

/-- The pieces of a 1 GB page. -/
theorem isPageMap_pieces (h : IsPageMap own pmap s) (ha : MapArgs va pa flags MM_PAGE_1GB)
    (hp : Pieces pmap va pa flags own s 512 own' s') :
    IsPageMap own' pmap s' ∧ MapsPages pmap va pa (512 * 512) own own' s s' := by
  have hva : va.toNat % 2 ^ 30 = 0 := ha.va_aligned
  have hpa : pa.toNat % 2 ^ 30 = 0 := ha.pa_aligned
  have hleaf : ∀ k, k < 512 → Plain 2 (leafPte (pa + BitVec.ofNat 64 k * MM_PAGE_2MB) flags 2) :=
    fun k hk => leafPte_plain (leafArgs_piece ha hk)
  have hread : ∀ k key, k < 512 → pageNumber pmap.level.num va + 512 * k ≤ key →
      key < pageNumber pmap.level.num va + 512 * k + 512 →
      pageView.read (.leaf 2 (leafPte (pa + BitVec.ofNat 64 k * MM_PAGE_2MB) flags 2)) key =
        pa.toNat / 4096 + key - pageNumber pmap.level.num va := by
    intro k key hk hlo hhi
    have hpiece := mapArgs_piece ha hk
    have hvpn : pageNumber pmap.level.num (va + BitVec.ofNat 64 k * MM_PAGE_2MB) % 512 = 0 :=
      pageNumber_aligned (mapRoot_num h.root) (L := 2) (by omega) hpiece.va_aligned
    rw [pageNumber_piece (mapRoot_num h.root) hk hva] at hvpn
    rw [leafPte_page_read (leafArgs_piece ha hk) hvpn hlo hhi, toNat_piece hk hpa]
    omega
  have hmaps := maps_pieces plain_inherited h.inv h.plain h.root ha (Nat.le_refl 512) hleaf
    (fun M e _ he => splitOk_page he) hread hp
  exact ⟨⟨hmaps.grow.inv, entries_pieces plain_inherited h.inv h.plain h.root ha (Nat.le_refl _)
    hleaf hp, mapRoot_grow h.root hmaps.grow⟩, hmaps⟩

/-- **`vmm_map` maps the pages of its range, and no others.** -/
theorem wp_vmmMap (pages1gb : Bool) {size : Usize} (ha : MapArgs va pa flags size)
    (h : IsPageMap own pmap s) (hfree : mapFrames pages1gb size ≤ s.free.length) :
    wp (vmmMap pages1gb pmap va pa flags size) s fun _ s' => ∃ own',
      IsPageMap own' pmap s' ∧ MapsPages pmap va pa (size.toNat / 4096) own own' s s' := by
  have hr := h.root
  have hroot := mapRoot_label hr (pageNumber_lt pmap.level.num va)
  unfold vmmMap
  unfold mapFrames at hfree
  rcases ha.sizes with rfl | rfl | rfl
  · rw [if_neg fun h => absurd h.1 (by decide)] at hfree
    refine wp_mono (wp_vmmMap_4KB pages1gb ha h.inv hr hfree) fun _ s' hp => ?_
    obtain ⟨own', hp⟩ := hp
    exact ⟨own', isPageMap_put h (leafArgs_of_mapArgs ha (Or.inl rfl) rfl) ha.va_aligned hp⟩
  · rw [if_neg fun h => absurd h.1 (by decide)] at hfree
    refine wp_mono (wp_vmmMap_2MB pages1gb ha h.inv hr (by omega)) fun _ s' hp => ?_
    obtain ⟨own', hp⟩ := hp
    exact ⟨own', isPageMap_put h (leafArgs_of_mapArgs ha (Or.inr (Or.inl rfl)) rfl) ha.va_aligned
      hp⟩
  cases pages1gb with
  | true =>
      rw [if_neg (by decide)] at hfree
      refine wp_mono (wp_vmmMap_leaf_1GB ha h.inv hr (by omega)) fun _ s' hp => ?_
      obtain ⟨own₁, s₁, pml3, hw, own', hc⟩ := hp
      have hleaf := leafArgs_of_mapArgs ha (Or.inr (Or.inr rfl)) rfl
      obtain ⟨hmap, hput⟩ := isPageMap_put h hleaf ha.va_aligned ⟨s₁, pml3, hw, rfl⟩
      obtain ⟨hgrow, hstage⟩ := leads_stage h.inv hroot hw (by omega)
      obtain ⟨hmap', hclosed⟩ := isPageMap_closed hmap ha (stage_stored hgrow.inv
        (stage_label hgrow.inv hstage) (slot_lt _ 2) hstage (Nat.le_refl _)) hc
      exact ⟨own', hmap', (maps_append (k := 0) hput hclosed (Nat.zero_le _) :)⟩
  | false =>
      rw [if_pos (by decide)] at hfree
      refine wp_mono (wp_vmmMap_pieces_1GB ha h.inv hr hfree) fun _ s' hp => ?_
      obtain ⟨own₁, s₁, pml3, own₂, s₂, hw, hp, own', hc⟩ := hp
      have hsteady := steady_leads (v := pageView) plain_inherited h.inv h.plain
        (tableFlags_way flags) hroot hw (by omega) fun M e _ he => splitOk_page he
      have hplain := entries_leads plain_inherited h.inv h.plain (tableFlags_way flags) hroot hw
        (by omega)
      obtain ⟨hgrow, hstage⟩ := leads_stage h.inv hroot hw (by omega)
      obtain ⟨hmap, hpieces⟩ := isPageMap_pieces ⟨hgrow.inv, hplain, mapRoot_grow hr hgrow⟩ ha hp
      obtain ⟨hmap', hclosed⟩ := isPageMap_closed hmap ha
        (stage_pieces hgrow.inv (mapRoot_grow hr hgrow) ha (Nat.le_refl _) hstage hp (by omega)) hc
      exact ⟨own', hmap', maps_of_steady hsteady
        (maps_append (k := 0) hpieces hclosed (Nat.zero_le _) :)⟩

end Program

/-! ## 3. `vmm_unmap` -/

/-- What unmapping `key` from table `t` of level `L` on does: nothing where the walk fails, and
    else the entry of the leaf is cleared. -/
inductive Cleared (s : VmmState) (key L : Nat) (t : Uptr) (s' : VmmState) : Prop where
  | missed (hw : walk s.mem key L t = none) (hs : s' = s)
  | found {K : Nat} {u : Uptr} {g : Hit → Hit} {h : Hit} (hw : walk s.mem key L t = some h)
      (hreach : Reach 512 pageKind (pteAt s.mem) key L t (K + 1) u g) (hlev : h.level = K + 1)
      (hs : s' = s.stored u (slot key K) 0)

section Unmap

variable {own : Uptr → Option (Nat × Nat)} {s s' : VmmState} {key K i : Nat} {t c : Uptr}

theorem cleared_absent (hp : ptePresent (pteAt s.mem t (slot key K)) = false) :
    Cleared s key (K + 1) t s :=
  .missed (walk_absent hp) rfl

theorem cleared_leaf
    (hk : pageKind (K + 1) (pteAt s.mem t (slot key K)) =
      .leaf (.leaf (K + 1) (pteAt s.mem t (slot key K)))) :
    Cleared s key (K + 1) t (s.stored t (slot key K) 0) :=
  .found (walk_leaf hk) .here rfl rfl

theorem cleared_next (hk : IsTable (pteAt s.mem t (slot key K)) c) (hK : K ≠ 0)
    (h : Cleared s key K c s') : Cleared s key (K + 1) t s' := by
  have hwalk := walk_next hk hK
  cases h with
  | missed hw hs => exact .missed (by rw [hwalk, hw]; rfl) hs
  | @found _ _ _ hit hw hreach hlev hs =>
      exact .found (h := .under (pteAt s.mem t (slot key K)) hit) (by rw [hwalk, hw]; rfl)
        (reach_cons (isTable_kind hk (by omega)) hreach) hlev hs

/-- **One level of `vmm_unmap_impl`**: `large` is what the code does at a large leaf. -/
theorem wp_unmapStep {large : Prog Fault VmmState Unit} {next : Uptr → Prog Fault VmmState Unit}
    (va : Uptr) (h : VmmInv own s) (ht : own t = some (K + 1, key / 512 ^ (K + 1))) (hK : K ≠ 0)
    (hi : i = slot key K)
    (hlarge : K + 1 ≤ 3 → large = pdStore t i 0 >>= fun _ => vmmInvalidatePage va)
    (hnext : ∀ c, own c = some (K, key / 512 ^ K) →
      wp (next c) s fun _ s' => Cleared s key K c s') :
    wp (do
      let e ← pdLoad t i
      if !ptePresent e then pure ()
      else if pteLarge e then large
      else do
        let c ← pdGet t i
        next c) s fun _ s' => Cleared s key (K + 1) t s' := by
  subst hi
  have hi := slot_lt key K
  rw [wp_bind, wp_pdLoad]
  cases hp : ptePresent (pteAt s.mem t (slot key K)) with
  | false =>
      rw [if_pos (by rfl), wp_pure]
      exact cleared_absent hp
  | true =>
      have hok := h.entries t _ _ _ ht hi hp (by omega)
      rw [if_neg (by simp)]
      cases hl : pteLarge (pteAt s.mem t (slot key K)) with
      | true =>
          rw [if_pos hl] at hok
          rw [if_pos (by rfl), hlarge hok.1, wp_bind, wp_pdStore]
          exact (wp_pure _ _ _).mpr (cleared_leaf (pageKind_large hp hl (by omega) hok.2))
      | false =>
          rw [if_neg (by simp [hl])] at hok
          have htable : IsTable (pteAt s.mem t (slot key K)) (hwTable _) := ⟨hp, hl, hok, rfl⟩
          have hc := child_label h ht hK hi htable
          rw [← div_pow_digit] at hc
          rw [if_neg (by simp), wp_bind, pdGet, wp_bind, wp_pdLoad, wp_pure, hp, hl,
            if_pos (by rfl), isTable_pteP2v htable]
          exact wp_mono (hnext _ hc) fun _ s' hs' => cleared_next htable hK hs'

/-- The last level of `vmm_unmap_impl`. -/
theorem wp_unmapLast (va : Uptr) (hi : i = slot key 0) :
    wp (do
      let e ← pdLoad t i
      if !ptePresent e then pure ()
      else do
        pdStore t i 0
        vmmInvalidatePage va) s fun _ s' => Cleared s key 1 t s' := by
  subst hi
  rw [wp_bind, wp_pdLoad]
  cases hp : ptePresent (pteAt s.mem t (slot key 0)) with
  | false =>
      rw [if_pos (by rfl), wp_pure]
      exact cleared_absent hp
  | true =>
      rw [if_neg (by simp), wp_bind, wp_pdStore]
      exact (wp_pure _ _ _).mpr (cleared_leaf (pageKind_one hp))

theorem wp_vmmUnmapFrom {top : Nat} (va : Uptr) (h : VmmInv own s) (hnum : top = 4 ∨ top = 5)
    (ht : own t = some (4, pageNumber top va / 512 ^ 4)) :
    wp (vmmUnmapFrom t va) s fun _ s' => Cleared s (pageNumber top va) 4 t s' := by
  refine wp_unmapStep va h ht (by omega) (pml4Index_eq va hnum) (fun h4 => by omega) fun c₃ h₃ => ?_
  refine wp_unmapStep va h h₃ (by omega) (pml3Index_eq va hnum) (fun _ => rfl) fun c₂ h₂ => ?_
  refine wp_unmapStep va h h₂ (by omega) (pml2Index_eq va hnum) (fun _ => rfl) fun c₁ h₁ => ?_
  exact wp_unmapLast va (pml1Index_eq va hnum)

/-- **`vmm_unmap` clears the entry of the leaf, if there is one.** -/
theorem wp_vmmUnmap_cleared {pmap : PageMap} (va : Uptr) (h : VmmInv own s)
    (hr : MapRoot own pmap) :
    wp (vmmUnmap pmap va) s fun _ s' =>
      Cleared s (pageNumber pmap.level.num va) pmap.level.num pmap.directory s' := by
  have hroot := mapRoot_label hr (pageNumber_lt pmap.level.num va)
  unfold vmmUnmap vmmUnmapImpl
  rcases hr.level with hl | hl
  · rw [hl] at hroot
    rw [hl]
    exact wp_vmmUnmapFrom va h (Or.inl rfl) hroot
  · rw [hl] at hroot
    rw [hl]
    exact wp_unmapStep va h hroot (by omega) (pml5Index_eq va) (fun h5 => by omega)
      fun c hc => wp_vmmUnmapFrom va h (Or.inr rfl) hc

/-- The level of a walk's leaf is one of the tables'. -/
theorem level_of_walk {m : Mem} {L : Nat} {h : Hit} (hw : walk m key L t = some h) :
    1 ≤ h.level ∧ h.level ≤ L ∧ h.level ≤ 3 := by
  induction L generalizing t h with
  | zero => cases hw
  | succ L ih =>
      unfold walk at hw
      rw [look] at hw
      cases hk : pageKind (L + 1) (pteAt m t (slot key L)) with
      | absent => rw [hk] at hw; cases hw
      | leaf r =>
          rw [hk] at hw
          cases hw
          obtain ⟨rfl, hlo, hhi, -⟩ := pageKind_leaf hk
          exact ⟨hlo, Nat.le_refl _, hhi⟩
      | next u f =>
          rw [hk] at hw
          obtain ⟨-, -, -, -, rfl⟩ := pageKind_next hk
          obtain ⟨h', hw', rfl⟩ := Option.map_eq_some_iff.mp hw
          have hlev := ih hw'
          exact ⟨hlev.1, Nat.le_succ_of_le hlev.2.1, hlev.2.2⟩

/-- A way down does not change what level a leaf has. -/
theorem reach_hitLevel {m : Mem} {L M : Nat} {u : Uptr} {g : Hit → Hit}
    (h : Reach 512 pageKind (pteAt m) key L t M u g) (hit : Hit) : (g hit).level = hit.level := by
  induction h generalizing hit with
  | here => rfl
  | down _ hk ih =>
      obtain ⟨-, -, -, -, rfl⟩ := pageKind_next hk
      exact ih _

/-- The entry of the leaf leads to no table. -/
theorem not_next_of_hit {m : Mem} {L : Nat} {u : Uptr} {g : Hit → Hit} {hit : Hit}
    (h : Reach 512 pageKind (pteAt m) key L t (K + 1) u g) (hw : walk m key L t = some hit)
    (hlev : hit.level = K + 1) (v : Uptr) (f : Hit → Hit) :
    pageKind (K + 1) (pteAt m u (slot key K)) ≠ .next v f := by
  intro hk
  rw [walk_reach (.down h hk)] at hw
  obtain ⟨leaf, hleaf, rfl⟩ := Option.map_eq_some_iff.mp hw
  rw [reach_hitLevel (.down h hk)] at hlev
  have := level_of_walk hleaf
  omega

/-- The state `s'` maps the pages of the leaf for `vpn` nowhere, and all others as `s` does. -/
structure Unmaps (own : Uptr → Option (Nat × Nat)) (s s' : VmmState) (top : Nat) (root : Uptr)
    (vpn : Nat) : Prop where
  grow : Grow own own s s'
  plain : Entries Plain own s'
  missed : walk s.mem vpn top root = none → s' = s
  found : ∀ h, walk s.mem vpn top root = some h → ∀ key, own root = some (top, key / 512 ^ top) →
    pageView.look s'.mem key top root =
      if key / 512 ^ (h.level - 1) = vpn / 512 ^ (h.level - 1) then none
      else pageView.look s.mem key top root

theorem unmaps_cleared {top vpn : Nat} {root : Uptr} (h : VmmInv own s)
    (hplain : Entries Plain own s) (hroot : own root = some (top, vpn / 512 ^ top))
    (hc : Cleared s vpn top root s') : Unmaps own s s' top root vpn := by
  cases hc with
  | missed hw hs =>
      subst hs
      refine ⟨grow_refl h, hplain, fun _ => rfl, fun h' hw' => ?_⟩
      rw [hw] at hw'
      cases hw'
  | @found K u g hit hw hreach hlev hs =>
      subst hs
      have hi := slot_lt vpn K
      have hu := reach_label (by decide) h.labelled hroot hreach
      have hedit := editAt_stored h hu hi 0
      have hgrow := grow_stored h hu hi entryOk_zero fun u f hk => by
        exact absurd (pageKind_next hk).1 (by decide)
      refine ⟨hgrow, entries_stored hplain h hu hi (plain_inherited.zero _), fun hw' => ?_,
        fun h' hw' key hr => ?_⟩
      · rw [hw] at hw'
        cases hw'
      · rw [hw] at hw'
        cases hw'
        rw [hlev, Nat.add_sub_cancel]
        by_cases hkey : key / 512 ^ K = vpn / 512 ^ K
        · rw [if_pos hkey]
          have hreach' := reach_key (reach_edit (by decide) h.labelled hedit hu (Nat.le_refl _)
            hroot hreach) (div_pow_congr hkey (Nat.le_succ K))
          have hslot : slot key K = slot vpn K := congrArg (· % 512) hkey
          rw [view_reach hreach', view_absent (pageKind_absent ?_)]
          rw [hslot, pteAt_stored h hu hi]
          rfl
        · rw [if_neg hkey]
          refine view_congr (look_edit_off (by decide) h.labelled hedit hu (fun hk => ?_) hr)
          rw [← div_pow_digit] at hk
          exact hkey hk

end Unmap

/-! ## 4. Addresses -/

/-- A partial function from virtual to physical addresses. -/
abbrev AddrMap := U64 → Option Nat

/-- The addresses from `va` on go to those from `pa` on. -/
def mapRange (f : AddrMap) (va pa : U64) (size : Nat) : AddrMap := fun x =>
  if va.toNat ≤ x.toNat ∧ x.toNat < va.toNat + size then some (pa.toNat + (x.toNat - va.toNat))
  else f x

/-- The page of `size` bytes around `va` goes nowhere. -/
def unmapRange (f : AddrMap) (va : U64) (size : Nat) : AddrMap := fun x =>
  if x.toNat / size = va.toNat / size then none else f x

section Addresses

variable {top : Nat} {va x pa : U64}

theorem hit_pa_eq {h : Hit} (ht : top = 4 ∨ top = 5) (hlev : h.level = 1 ∨ h.level = 2 ∨ h.level = 3)
    (x : U64) : h.pa x = 4096 * h.page (pageNumber top x) + x.toNat % 4096 := by
  unfold Hit.pa Hit.page pageNumber pageBytes
  rcases hlev with hl | hl | hl
  all_goals rw [hl]
  all_goals rcases ht with rfl | rfl <;> omega

/-- The address of a page map, from its page. -/
theorem resolve_eq (m : Mem) {pmap : PageMap} (ht : pmap.level.num = 4 ∨ pmap.level.num = 5)
    (x : U64) : resolve m pmap x =
      (pageView.look m (pageNumber pmap.level.num x) pmap.level.num pmap.directory).map fun p =>
        4096 * p + x.toNat % 4096 := by
  unfold resolve hwWalk View.look
  rw [Option.map_map]
  cases hw : walk m (pageNumber pmap.level.num x) pmap.level.num pmap.directory with
  | none => rfl
  | some h =>
      have hlev := level_of_walk hw
      exact congrArg some (hit_pa_eq ht (by omega) x)

theorem resolve_congr {m m' : Mem} {pmap : PageMap} (ht : pmap.level.num = 4 ∨ pmap.level.num = 5)
    (h : pageView.look m' (pageNumber pmap.level.num x) pmap.level.num pmap.directory =
      pageView.look m (pageNumber pmap.level.num x) pmap.level.num pmap.directory) :
    resolve m' pmap x = resolve m pmap x := by
  rw [resolve_eq m' ht, resolve_eq m ht, h]

/-- A range of addresses and its page numbers. -/
theorem pageNumber_range {size : Usize} (ht : top = 4 ∨ top = 5)
    (hs : size = MM_PAGE_4KB ∨ size = MM_PAGE_2MB ∨ size = MM_PAGE_1GB)
    (hv : va.toNat % size.toNat = 0) (hva : Canonical top va) (hx : Canonical top x) :
    (pageNumber top va ≤ pageNumber top x ∧
      pageNumber top x < pageNumber top va + size.toNat / 4096) ↔
      (va.toNat ≤ x.toNat ∧ x.toNat < va.toNat + size.toNat) := by
  have h1 := va.isLt
  have h2 := x.isLt
  rcases hs with rfl | rfl | rfl
  · simp only [show MM_PAGE_4KB.toNat = 4096 from rfl, Canonical, pageNumber] at *
    rcases ht with rfl | rfl <;> omega
  · simp only [show MM_PAGE_2MB.toNat = 2097152 from rfl, Canonical, pageNumber] at *
    rcases ht with rfl | rfl <;> omega
  · simp only [show MM_PAGE_1GB.toNat = 1073741824 from rfl, Canonical, pageNumber] at *
    rcases ht with rfl | rfl <;> omega

/-- The offset in a range, in pages. -/
theorem pageNumber_offset {size : Usize} (ht : top = 4 ∨ top = 5)
    (hs : size = MM_PAGE_4KB ∨ size = MM_PAGE_2MB ∨ size = MM_PAGE_1GB)
    (hv : va.toNat % size.toNat = 0) (hp : pa.toNat % size.toNat = 0) (hva : Canonical top va)
    (hx : Canonical top x) (hlo : va.toNat ≤ x.toNat) (hhi : x.toNat < va.toNat + size.toNat) :
    4096 * (pa.toNat / 4096 + pageNumber top x - pageNumber top va) + x.toNat % 4096 =
      pa.toNat + (x.toNat - va.toNat) := by
  have h1 := va.isLt
  have h2 := x.isLt
  rcases hs with rfl | rfl | rfl
  · simp only [show MM_PAGE_4KB.toNat = 4096 from rfl, Canonical, pageNumber] at *
    rcases ht with rfl | rfl <;> omega
  · simp only [show MM_PAGE_2MB.toNat = 2097152 from rfl, Canonical, pageNumber] at *
    rcases ht with rfl | rfl <;> omega
  · simp only [show MM_PAGE_1GB.toNat = 1073741824 from rfl, Canonical, pageNumber] at *
    rcases ht with rfl | rfl <;> omega

/-- The addresses of one page, and their page numbers. -/
theorem pageNumber_same {L : Nat} (ht : top = 4 ∨ top = 5) (hL : L = 1 ∨ L = 2 ∨ L = 3)
    (hva : Canonical top va) (hx : Canonical top x) :
    pageNumber top x / 512 ^ (L - 1) = pageNumber top va / 512 ^ (L - 1) ↔
      x.toNat / pageBytes L = va.toNat / pageBytes L := by
  have h1 := va.isLt
  have h2 := x.isLt
  rcases hL with rfl | rfl | rfl
  all_goals simp only [Canonical, pageNumber, pageBytes] at *
  all_goals rcases ht with rfl | rfl <;> omega

end Addresses

/-! ## 5. Runs -/

/-- A page map with an empty directory, which is none of the free frames. -/
structure EmptyMap (pmap : PageMap) (s : VmmState) : Prop where
  level : pmap.level = .PML4 ∨ pmap.level = .PML5
  directory : FrameOk pmap.directory
  empty : ∀ i, i < 512 → pteAt s.mem pmap.directory i = 0
  free : ∀ f ∈ s.free, FrameOk f ∧ f ≠ pmap.directory
  nodup : s.free.Nodup

/-- The states a run of `vmm_map` and `vmm_unmap` on one page map reaches from an empty directory,
    with frames enough for each call. -/
inductive Built (pages1gb : Bool) (pmap : PageMap) : VmmState → Prop where
  | empty {s : VmmState} (h : EmptyMap pmap s) : Built pages1gb pmap s
  | map {s s' : VmmState} {va pa flags : U64} {size : Usize} (h : Built pages1gb pmap s)
      (ha : MapArgs va pa flags size) (hva : Canonical pmap.level.num va)
      (hfree : mapFrames pages1gb size ≤ s.free.length)
      (hrun : vmmMap pages1gb pmap va pa flags size s = .ok ((), s')) : Built pages1gb pmap s'
  | unmap {s s' : VmmState} {va : U64} (h : Built pages1gb pmap s)
      (hva : Canonical pmap.level.num va) (hrun : vmmUnmap pmap va s = .ok ((), s')) :
      Built pages1gb pmap s'

section Runs

variable {pages1gb : Bool} {pmap : PageMap} {s s' : VmmState} {va pa flags : U64} {size : Usize}
  {own : Uptr → Option (Nat × Nat)}

theorem isPageMap_empty (h : EmptyMap pmap s) :
    IsPageMap (fun u => if u = pmap.directory then some (pmap.level.num, 0) else none) pmap s := by
  have hown : ∀ {t L p}, (if t = pmap.directory then some (pmap.level.num, 0) else none) =
      some (L, p) → t = pmap.directory := by
    intro t L p ht
    by_contra hne
    rw [if_neg hne] at ht
    cases ht
  refine ⟨⟨fun t L p i u f ht hi hk => ?_, fun t L p ht => ?_, fun t L p i ht hi => ?_,
    fun f hf => ⟨(h.free f hf).1, if_neg (h.free f hf).2⟩, h.nodup⟩, fun t L p i ht hi => ?_,
    ⟨h.level, if_pos rfl⟩⟩
  · rw [hown ht, h.empty i hi] at hk
    exact absurd (pageKind_next hk).1 (by decide)
  · rw [hown ht]
    exact h.directory
  · rw [hown ht, h.empty i hi]
    exact entryOk_zero
  · rw [hown ht, h.empty i hi]
    exact (plain_inherited.zero _)

/-- **What `vmm_map` does to the addresses of a page map.** -/
theorem wp_vmmMap_resolve (h : IsPageMap own pmap s) (ha : MapArgs va pa flags size)
    (hva : Canonical pmap.level.num va) (hfree : mapFrames pages1gb size ≤ s.free.length) :
    wp (vmmMap pages1gb pmap va pa flags size) s fun _ s' => (∃ own', IsPageMap own' pmap s') ∧
      ∀ x, Canonical pmap.level.num x →
        resolve s'.mem pmap x = mapRange (resolve s.mem pmap) va pa size.toNat x := by
  have hnum := mapRoot_num h.root
  refine wp_mono (wp_vmmMap pages1gb ha h hfree) fun _ s' hm => ?_
  obtain ⟨own', hmap, hm⟩ := hm
  refine ⟨⟨own', hmap⟩, fun x hx => ?_⟩
  have hlabel := mapRoot_label h.root (pageNumber_lt pmap.level.num x)
  have hrange := pageNumber_range hnum ha.sizes ha.va_aligned hva hx
  unfold mapRange
  by_cases hin : va.toNat ≤ x.toNat ∧ x.toNat < va.toNat + size.toNat
  · obtain ⟨hlo, hhi⟩ := hrange.mpr hin
    rw [if_pos hin, resolve_eq _ hnum, hm.here _ hlabel hlo hhi]
    exact congrArg some (pageNumber_offset hnum ha.sizes ha.va_aligned ha.pa_aligned hva hx hin.1
      hin.2)
  · rw [if_neg hin]
    exact resolve_congr hnum (hm.other _ _ _ hlabel fun hp => hin (hrange.mp hp))

/-- **What `vmm_unmap` does to the addresses of a page map.** -/
theorem wp_vmmUnmap_resolve (h : IsPageMap own pmap s) (hva : Canonical pmap.level.num va) :
    wp (vmmUnmap pmap va) s fun _ s' => IsPageMap own pmap s' ∧
      ∀ x, Canonical pmap.level.num x → resolve s'.mem pmap x =
        match hwWalk s.mem pmap va with
        | none => resolve s.mem pmap x
        | some hit => unmapRange (resolve s.mem pmap) va (pageBytes hit.level) x := by
  have hnum := mapRoot_num h.root
  have hlabel := fun x => mapRoot_label h.root (pageNumber_lt pmap.level.num x)
  refine wp_mono (wp_vmmUnmap_cleared va h.inv h.root) fun _ s' hc => ?_
  have hu := unmaps_cleared h.inv h.plain (hlabel va) hc
  refine ⟨⟨hu.grow.inv, hu.plain, h.root⟩, fun x hx => ?_⟩
  cases hw : hwWalk s.mem pmap va with
  | none => rw [hu.missed hw]
  | some hit =>
      have hlev := level_of_walk hw
      have hsame := pageNumber_same hnum (L := hit.level) (by omega) hva hx
      have hpage := hu.found hit hw _ (hlabel x)
      show _ = unmapRange (resolve s.mem pmap) va (pageBytes hit.level) x
      unfold unmapRange
      by_cases hin : x.toNat / pageBytes hit.level = va.toNat / pageBytes hit.level
      · rw [if_pos (hsame.mpr hin)] at hpage
        rw [if_pos hin, resolve_eq _ hnum, hpage]
        rfl
      · rw [if_neg fun hp => hin (hsame.mp hp)] at hpage
        rw [if_neg hin]
        exact resolve_congr hnum hpage

/-- Every state of a run is a page map. -/
theorem built_isPageMap (h : Built pages1gb pmap s) : ∃ own, IsPageMap own pmap s := by
  induction h with
  | empty h => exact ⟨_, isPageMap_empty h⟩
  | map _ ha hva hfree hrun ih =>
      obtain ⟨own, hmap⟩ := ih
      exact ((wp_of_eq hrun).mp (wp_vmmMap_resolve hmap ha hva hfree)).1
  | unmap _ hva hrun ih =>
      obtain ⟨own, hmap⟩ := ih
      exact ⟨own, ((wp_of_eq hrun).mp (wp_vmmUnmap_resolve hmap hva)).1⟩

/-- **A page map refines a partial function on addresses**: in every state of a run each call
    returns and does to the addresses what `mapRange` and `unmapRange` do. -/
theorem vmm_refines (h : Built pages1gb pmap s) :
    (∀ va pa flags size, MapArgs va pa flags size → Canonical pmap.level.num va →
      mapFrames pages1gb size ≤ s.free.length →
      wp (vmmMap pages1gb pmap va pa flags size) s fun _ s' => ∀ x, Canonical pmap.level.num x →
        resolve s'.mem pmap x = mapRange (resolve s.mem pmap) va pa size.toNat x) ∧
    ∀ va, Canonical pmap.level.num va →
      wp (vmmUnmap pmap va) s fun _ s' => ∀ x, Canonical pmap.level.num x →
        resolve s'.mem pmap x =
          match hwWalk s.mem pmap va with
          | none => resolve s.mem pmap x
          | some hit => unmapRange (resolve s.mem pmap) va (pageBytes hit.level) x := by
  obtain ⟨own, hmap⟩ := built_isPageMap h
  refine ⟨fun va pa flags size ha hva hfree => ?_, fun va hva => ?_⟩
  · exact wp_mono (wp_vmmMap_resolve hmap ha hva hfree) fun _ s' hs' => hs'.2
  · exact wp_mono (wp_vmmUnmap_resolve hmap hva) fun _ s' hs' => hs'.2

end Runs

/-- A page map in zeroed memory, with nine more frames. -/
def zeroedMap : PageMap := { level := .PML4, directory := 0x1000 }

def zeroedState : VmmState :=
  { mem := fun _ => 0
    free := [0x2000, 0x3000, 0x4000, 0x5000, 0x6000, 0x7000, 0x8000, 0x9000, 0xA000] }

theorem zeroedMap_empty : EmptyMap zeroedMap zeroedState := by
  refine ⟨Or.inl rfl, ⟨rfl, ?_⟩, fun i _ => load64_zero _, fun f hf => ?_, ?_⟩
  · simp [zeroedMap]
  · simp only [zeroedState, List.mem_cons, List.not_mem_nil, or_false] at hf
    rcases hf with rfl | rfl | rfl | rfl | rfl | rfl | rfl | rfl | rfl
    all_goals exact ⟨⟨rfl, by simp⟩, by simp [zeroedMap]⟩
  · simp [zeroedState]

theorem zeroedState_frames {n : Nat} (hn : n ≤ 9) : n ≤ zeroedState.free.length := hn

/-- A page in the upper half, mapped in an empty directory. -/
theorem vmm_refines_upper_page :
    wp (vmmMap true zeroedMap 0xFFFFFFFF80000000 0x200000 MM_PT_FLAG_WRITE MM_PAGE_4KB) zeroedState
      fun _ s' => resolve s'.mem zeroedMap 0xFFFFFFFF80000123 = some 0x200123 := by
  have hargs : MapArgs 0xFFFFFFFF80000000 0x200000 MM_PT_FLAG_WRITE MM_PAGE_4KB :=
    ⟨Or.inl rfl, rfl, rfl, by simp, rfl⟩
  have hva : ∀ x : U64, 0xFFFFFFFF80000000 ≤ x.toNat → Canonical zeroedMap.level.num x := by
    intro x hx
    refine Or.inr ?_
    simp only [zeroedMap, PageMapLevel.num]
    omega
  refine wp_mono ((vmm_refines (.empty zeroedMap_empty)).1 _ _ _ _ hargs (hva _ (by simp))
    (zeroedState_frames (by decide))) fun _ s' hs' => ?_
  rw [hs' 0xFFFFFFFF80000123 (hva _ (by simp))]
  rfl

end Slightx
