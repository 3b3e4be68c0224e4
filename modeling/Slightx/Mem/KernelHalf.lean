/-
  File:      Slightx/Mem/KernelHalf.lean
  Subject:   The kernel's half of all page maps.

  `vmm_make_page_map` copies the upper half of the kernel's top-level table, "so the kernel is
  mapped in every address space". The copies lead to the kernel's own tables, which later calls
  for the kernel change in place; only the top-level entries themselves are not shared:

  * `HalfInv` -- every entry of a copy leads where the kernel's entry leads;
  * `topMapped_put`, … -- a call for the kernel changes no top-level table but the kernel's, and
    there it leaves the entries that lead somewhere;
  * `kernelHalf_runs` -- so the halves agree in every run, until a call fills an empty top-level
    entry after a copy was made.
-/
import Slightx.Mem.VmmMap

namespace Slightx

open Lib

/-! ## 1. Top-level tables -/

/-- The steps from `s` to `s'` change top-level tables in entry `i` of `root` only, and there
    they leave an entry that leads to a table. -/
structure TopKept (own : Uptr → Option (Nat × Nat)) (top : Nat) (root : Uptr) (i : Nat)
    (s s' : VmmState) : Prop where
  off : ∀ u q j, own u = some (top, q) → j < 512 → ¬ (u = root ∧ j = i) →
    pteAt s'.mem u j = pteAt s.mem u j
  table : ∀ c, IsTable (pteAt s.mem root i) c → IsTable (pteAt s'.mem root i) c

section TopKept

variable {own own' own'' : Uptr → Option (Nat × Nat)} {s s' s'' : VmmState} {t c root : Uptr}
  {key top K L p i : Nat} {tf e : U64}

theorem topKept_refl : TopKept own top root i s s := ⟨fun _ _ _ _ _ _ => rfl, fun _ h => h⟩

theorem topKept_trans (hg : Grow own own' s s') (h : TopKept own top root i s s')
    (h' : TopKept own' top root i s' s'') : TopKept own top root i s s'' := by
  refine ⟨fun u q j hu hj hne => ?_, fun c hc => h'.table c (h.table c hc)⟩
  rw [h'.off u q j (hg.keep _ _ _ hu) hj hne, h.off u q j hu hj hne]

/-- An edit of a table below leaves all top-level tables alone. -/
theorem top_below {u : Uptr} {q j k : Nat} (ht : own t = some (L, p)) (hL : L < top)
    (he : EditAt 512 own (pteAt s.mem) (pteAt s'.mem) t j) (hu : own u = some (top, q))
    (hk : k < 512) : pteAt s'.mem u k = pteAt s.mem u k := by
  refine he u k (by rw [hu]; exact Option.some_ne_none _) hk fun hsame => ?_
  rw [hsame.1, ht] at hu
  injection hu with hu
  have hlev : L = top := congrArg Prod.fst hu
  omega

theorem topKept_below {r : Nat} (hroot : own root = some (top, r)) (ht : own t = some (L, p))
    (hL : L < top) (hi : i < 512) {j : Nat}
    (he : EditAt 512 own (pteAt s.mem) (pteAt s'.mem) t j) : TopKept own top root i s s' := by
  refine ⟨fun u q k hu hk _ => top_below ht hL he hu hk, fun c hc => ?_⟩
  rw [top_below ht hL he hroot hi]
  exact hc

/-- A descent from the top-level table leaves the entries that lead somewhere. -/
theorem topKept_descended
    (hd : Descended own own' s s' t i K p tf c) : TopKept own (K + 1) t i s s' := by
  refine ⟨fun u q j hu hj hne => ?_, fun c' hc' => ?_⟩
  · exact hd.edit u j (by rw [hu]; exact Option.some_ne_none _) hj hne
  · cases hd.how with
    | created hold _ _ =>
        rw [hc'.present] at hold
        cases hold
    | shared hold _ =>
        rw [← hc'.table, hold.table]
        exact hd.table
    | split _ hl _ _ _ =>
        rw [hc'.small] at hl
        cases hl

/-- The way of a call changes the entry it starts from only. -/
theorem topKept_leads (h : VmmInv own s) (hroot : own root = some (top, key / 512 ^ top))
    (hi : i = slot key (top - 1)) (hl : Leads key top root tf own s own' s' K t) (hK : K ≠ 0) :
    TopKept own top root i s s' := by
  induction hl with
  | root => exact topKept_refl
  | @down own₁ own₂ s₁ s₂ K t c hw hd ih =>
      obtain ⟨hgrow, hstage⟩ := leads_stage h hroot hw (Nat.succ_ne_zero K)
      have ht := stage_label hgrow.inv hstage
      have hroot₁ := hgrow.keep _ _ _ hroot
      refine topKept_trans hgrow (ih (Nat.succ_ne_zero K)) ?_
      cases hw with
      | root =>
          rw [hi, Nat.add_sub_cancel]
          exact topKept_descended hd
      | down hw' _ =>
          have hlt := leads_level hw'
          exact topKept_below hroot₁ ht (by omega) (by rw [hi]; exact slot_lt _ _) hd.edit

end TopKept

/-- Whether a page is mapped at all. -/
def anyView : View Unit := ⟨fun _ _ => (), fun _ _ _ => rfl⟩

/-- The top-level entry for an address. -/
abbrev topSlot (pmap : PageMap) (va : U64) : Nat :=
  slot (pageNumber pmap.level.num va) (pmap.level.num - 1)

section Program

variable {pmap : PageMap} {va pa flags : U64} {own own' : Uptr → Option (Nat × Nat)}
  {s s' : VmmState} {L n : Nat}

/-- What a call owes to the top-level tables. -/
structure TopMapped (pmap : PageMap) (va : U64) (own own' : Uptr → Option (Nat × Nat))
    (s s' : VmmState) : Prop where
  grow : Grow own own' s s'
  top : TopKept own pmap.level.num pmap.directory (topSlot pmap va) s s'

theorem topMapped_trans {own'' : Uptr → Option (Nat × Nat)} {s'' : VmmState}
    (h : TopMapped pmap va own own' s s') (h' : TopMapped pmap va own' own'' s' s'') :
    TopMapped pmap va own own'' s s'' :=
  ⟨grow_trans h.grow h'.grow, topKept_trans h.grow h.top h'.top⟩

theorem topMapped_way {tf : U64} {K : Nat} {t : Uptr} (h : VmmInv own s) (hr : MapRoot own pmap)
    (hw : Way pmap va tf own s own' s' K t) (hK : K ≠ 0) : TopMapped pmap va own own' s s' := by
  have hroot := mapRoot_label hr (pageNumber_lt pmap.level.num va)
  exact ⟨(leads_stage h hroot hw hK).1, topKept_leads h hroot rfl hw hK⟩

theorem topMapped_leaf {K : Nat} {t : Uptr} (h : VmmInv own s) (hr : MapRoot own pmap)
    (hs : Stage own s pmap.level.num pmap.directory (pageNumber pmap.level.num va) (K + 1) t)
    (ha : LeafArgs pa flags (K + 1)) : TopMapped pmap va own own s
      (s.stored t (slot (pageNumber pmap.level.num va) K) (leafPte pa flags (K + 1))) := by
  have hlev := ha.level
  have hnum := mapRoot_num hr
  have ht := stage_label h hs
  have hi := slot_lt (pageNumber pmap.level.num va) K
  exact ⟨grow_leaf h ht hi ha, topKept_below hr.root ht (by omega) (slot_lt _ _)
    (editAt_stored h ht hi (leafPte pa flags (K + 1)))⟩

theorem topMapped_put (h : VmmInv own s) (hr : MapRoot own pmap) (ha : LeafArgs pa flags L)
    (hp : Put pmap va pa flags own s own' s' L) : TopMapped pmap va own own' s s' := by
  obtain ⟨s₁, t, hw, rfl⟩ := hp
  have hlev := ha.level
  obtain ⟨K, rfl⟩ : ∃ K, L = K + 1 := ⟨L - 1, by omega⟩
  have hroot := mapRoot_label hr (pageNumber_lt pmap.level.num va)
  have hway := topMapped_way h hr hw (Nat.succ_ne_zero K)
  have hstage := (leads_stage h hroot hw (Nat.succ_ne_zero K)).2
  have hleaf := topMapped_leaf hway.grow.inv (mapRoot_grow hr hway.grow) hstage ha
  exact topMapped_trans hway hleaf

/-- All pieces of a 1 GB page pass one top-level entry. -/
theorem topSlot_piece {k : Nat} (hr : MapRoot own pmap) (hk : k < 512)
    (hv : va.toNat % 2 ^ 30 = 0) :
    topSlot pmap (va + BitVec.ofNat 64 k * MM_PAGE_2MB) = topSlot pmap va := by
  have haligned := pageNumber_aligned (L := 3) (mapRoot_num hr) (by omega) hv
  unfold topSlot
  rw [pageNumber_piece (mapRoot_num hr) hk hv]
  unfold slot
  rcases mapRoot_num hr with hl | hl
  all_goals rw [hl] at haligned ⊢
  all_goals omega

theorem topMapped_pieces (h : VmmInv own s) (hr : MapRoot own pmap)
    (ha : MapArgs va pa flags MM_PAGE_1GB) (hn : n ≤ 512)
    (hp : Pieces pmap va pa flags own s n own' s') : TopMapped pmap va own own' s s' := by
  induction hp with
  | zero => exact ⟨grow_refl h, topKept_refl⟩
  | @succ n _ _ _ _ _ hput ih =>
      have hmapped := ih (by omega)
      have hr' := mapRoot_grow hr hmapped.grow
      have hpiece := topMapped_put hmapped.grow.inv hr' (leafArgs_piece ha (by omega)) hput
      refine topMapped_trans hmapped ⟨hpiece.grow, ?_⟩
      rw [← topSlot_piece hr (k := n) (by omega) ha.va_aligned]
      exact hpiece.top

theorem topMapped_closed {pml3 : Uptr} (h : VmmInv own s) (hr : MapRoot own pmap)
    (ha : MapArgs va pa flags MM_PAGE_1GB)
    (hs : Stage own s pmap.level.num pmap.directory (pageNumber pmap.level.num va) 3 pml3)
    (hc : Closed pmap va pa flags pml3 own s own' s') : TopMapped pmap va own own' s s' := by
  obtain ⟨s₁, c, hd, rfl⟩ := hc
  have hnum := mapRoot_num hr
  have hdown : TopMapped pmap va own own' s s₁ := ⟨hd.grow, topKept_below hr.root
    (stage_label h hs) (by omega) (slot_lt _ _) hd.edit⟩
  have hleaf := topMapped_leaf hd.grow.inv (mapRoot_grow hr hd.grow)
    (stage_descended h hs (by omega) hd) (leafArgs_closed ha)
  exact topMapped_trans hdown hleaf

/-- The end of a call for 1 GB leaves its first page mapped. -/
theorem any_closed {pml3 : Uptr} (h : VmmInv own s) (hr : MapRoot own pmap)
    (ha : MapArgs va pa flags MM_PAGE_1GB)
    (hs : Stage own s pmap.level.num pmap.directory (pageNumber pmap.level.num va) 3 pml3)
    (hc : Closed pmap va pa flags pml3 own s own' s') :
    anyView.look s'.mem (pageNumber pmap.level.num va) pmap.level.num pmap.directory = some () := by
  have hroot := mapRoot_label hr (pageNumber_lt pmap.level.num va)
  have hmaps := maps_closed (v := anyView) (w := fun _ => ()) h hr ha hs (fun _ _ _ _ => rfl)
    (fun _ _ _ => rfl) hc
  exact hmaps.here _ hroot (Nat.le_refl _) (by omega)

theorem any_put (h : VmmInv own s) (hr : MapRoot own pmap) (ha : LeafArgs pa flags L)
    (hv : va.toNat % pageBytes L = 0) (hp : Put pmap va pa flags own s own' s' L) :
    anyView.look s'.mem (pageNumber pmap.level.num va) pmap.level.num pmap.directory = some () := by
  have hroot := mapRoot_label hr (pageNumber_lt pmap.level.num va)
  have htrue : Inherited fun _ _ => True :=
    ⟨fun _ _ _ _ _ _ => trivial, fun _ _ _ _ _ _ => trivial, fun _ => trivial,
      fun _ _ _ _ _ _ _ _ => trivial⟩
  have hmaps := maps_put (v := anyView) (w := fun _ => ()) htrue h (fun _ _ _ _ _ _ => trivial) hr
    ha hv (fun _ _ _ _ _ _ _ _ => rfl) (fun _ _ _ => rfl) hp
  exact hmaps.here _ hroot (Nat.le_refl _) (Nat.lt_add_of_pos_right (Nat.pow_pos (by omega)))

/-- **What `vmm_map` does to the top-level tables.** -/
theorem wp_vmmMap_top (pages1gb : Bool) {size : Usize} (ha : MapArgs va pa flags size)
    (h : VmmInv own s) (hr : MapRoot own pmap) (hfree : mapFrames pages1gb size ≤ s.free.length) :
    wp (vmmMap pages1gb pmap va pa flags size) s fun _ s' => ∃ own',
      TopMapped pmap va own own' s s' ∧
        anyView.look s'.mem (pageNumber pmap.level.num va) pmap.level.num pmap.directory =
          some () := by
  have hroot := mapRoot_label hr (pageNumber_lt pmap.level.num va)
  unfold vmmMap
  unfold mapFrames at hfree
  rcases ha.sizes with rfl | rfl | rfl
  · rw [if_neg fun h => absurd h.1 (by decide)] at hfree
    refine wp_mono (wp_vmmMap_4KB pages1gb ha h hr hfree) fun _ s' hp => ?_
    obtain ⟨own', hp⟩ := hp
    have hleaf := leafArgs_of_mapArgs (L := 1) ha (by omega) rfl
    exact ⟨own', topMapped_put h hr hleaf hp, any_put h hr hleaf ha.va_aligned hp⟩
  · rw [if_neg fun h => absurd h.1 (by decide)] at hfree
    refine wp_mono (wp_vmmMap_2MB pages1gb ha h hr (by omega)) fun _ s' hp => ?_
    obtain ⟨own', hp⟩ := hp
    have hleaf := leafArgs_of_mapArgs (L := 2) ha (by omega) rfl
    exact ⟨own', topMapped_put h hr hleaf hp, any_put h hr hleaf ha.va_aligned hp⟩
  cases pages1gb with
  | true =>
      rw [if_neg (by decide)] at hfree
      refine wp_mono (wp_vmmMap_leaf_1GB ha h hr (by omega)) fun _ s' hp => ?_
      obtain ⟨own₁, s₁, pml3, hw, own', hc⟩ := hp
      have hleaf := leafArgs_of_mapArgs (L := 3) ha (by omega) rfl
      obtain ⟨hgrow, hstage⟩ := leads_stage h hroot hw (by omega)
      have hput := topMapped_put h hr hleaf ⟨s₁, pml3, hw, rfl⟩
      have hr' := mapRoot_grow hr hput.grow
      have hstage' := stage_stored (e := leafPte pa flags 3) hgrow.inv
        (stage_label hgrow.inv hstage) (slot_lt (pageNumber pmap.level.num va) 2) hstage
        (Nat.le_refl _)
      exact ⟨own', topMapped_trans hput (topMapped_closed hput.grow.inv hr' ha hstage' hc),
        any_closed hput.grow.inv hr' ha hstage' hc⟩
  | false =>
      rw [if_pos (by decide)] at hfree
      refine wp_mono (wp_vmmMap_pieces_1GB ha h hr hfree) fun _ s' hp => ?_
      obtain ⟨own₁, s₁, pml3, own₂, s₂, hw, hp, own', hc⟩ := hp
      have hway := topMapped_way h hr hw (by omega)
      have hr₁ := mapRoot_grow hr hway.grow
      have hpieces := topMapped_pieces hway.grow.inv hr₁ ha (Nat.le_refl _) hp
      have hr₂ := mapRoot_grow hr₁ hpieces.grow
      have hstage := stage_pieces hway.grow.inv hr₁ ha (Nat.le_refl _)
        (leads_stage h hroot hw (by omega)).2 hp (by omega)
      exact ⟨own', topMapped_trans hway (topMapped_trans hpieces
        (topMapped_closed hpieces.grow.inv hr₂ ha hstage hc)),
        any_closed hpieces.grow.inv hr₂ ha hstage hc⟩

/-- `vmm_unmap` changes no top-level table. -/
theorem wp_vmmUnmap_top (va : U64) (h : VmmInv own s) (hr : MapRoot own pmap) :
    wp (vmmUnmap pmap va) s fun _ s' => TopMapped pmap va own own s s' ∧
      pteAt s'.mem pmap.directory (topSlot pmap va) =
        pteAt s.mem pmap.directory (topSlot pmap va) := by
  have hroot := mapRoot_label hr (pageNumber_lt pmap.level.num va)
  have hnum := mapRoot_num hr
  refine wp_mono (wp_vmmUnmap_cleared va h hr) fun _ s' hc => ?_
  cases hc with
  | missed _ hs =>
      rw [hs]
      exact ⟨⟨grow_refl h, topKept_refl⟩, rfl⟩
  | @found K u g hit hw hreach hlev hs =>
      subst hs
      have hi := slot_lt (pageNumber pmap.level.num va) K
      have hu := reach_label (by omega) h.labelled hroot hreach
      have hlevel := level_of_walk hw
      have hedit := editAt_stored h hu hi 0
      have hgrow := grow_stored h hu hi entryOk_zero fun u f hk => by
        exact absurd (pageKind_next hk).1 (by decide)
      exact ⟨⟨hgrow, topKept_below hr.root hu (by omega) (slot_lt _ _) hedit⟩,
        top_below hu (by omega) hedit hr.root (slot_lt _ _)⟩

end Program

/-! ## 2. A copy of the upper half -/

section Copy

variable {kmap p : PageMap} {own : Uptr → Option (Nat × Nat)} {s s' : VmmState} {c : Uptr}
  {rest : List Uptr} {top : Nat}

/-- The new directory: the upper half of the kernel's, and nothing below. -/
structure Copied (kdir c : Uptr) (s s' : VmmState) : Prop where
  upper : ∀ j, 256 ≤ j → j < 512 → pteAt s'.mem c j = pteAt s.mem kdir j
  lower : ∀ j, j < 256 → pteAt s'.mem c j = 0
  other : ∀ u j, FrameOk u → u ≠ c → j < 512 → pteAt s'.mem u j = pteAt s.mem u j

/-- The loop of `vmm_make_page_map`. -/
theorem wp_copyUpper {kdir : Uptr} (hc : FrameOk c) (hk : FrameOk kdir) (hne : kdir ≠ c) :
    wp (forUp 256 fun k => do
        let pte ← pdLoad kdir (256 + k)
        pdStore c (256 + k) pte) { s with mem := fill s.mem c.toNat 4096 0 }
      fun _ s' => Copied kdir c s s' ∧ s'.free = s.free := by
  let I : Nat → VmmState → Prop := fun n t => t.free = s.free ∧ ∀ u j, FrameOk u → j < 512 →
    pteAt t.mem u j = if u = c then if 256 ≤ j ∧ j < 256 + n then pteAt s.mem kdir j else 0
      else pteAt s.mem u j
  have h0 : I 0 { s with mem := fill s.mem c.toNat 4096 0 } := by
    refine ⟨rfl, fun u j hu hj => ?_⟩
    rw [if_neg fun h : 256 ≤ j ∧ j < 256 + 0 => by omega]
    exact pteAt_fill hc hu hj
  have hstep : ∀ k t, k < 256 → I k t → wp (do
      let pte ← pdLoad kdir (256 + k)
      pdStore c (256 + k) pte) t fun _ t' => I (k + 1) t' := by
    intro k t hk' ht
    obtain ⟨hfree, hread⟩ := ht
    rw [wp_bind, wp_pdLoad, wp_pdStore]
    refine ⟨hfree, fun u j hu hj => ?_⟩
    show pteAt (store64 t.mem (c.toNat + 8 * (256 + k)) _) u j = _
    rw [pteAt_store64 hc hu (by omega) hj, hread u j hu hj, hread kdir _ hk (by omega), if_neg hne]
    by_cases huc : u = c
    · simp only [huc, true_and, if_true]
      by_cases hjk : j = 256 + k
      · rw [if_pos hjk, if_pos (by omega), hjk]
      · rw [if_neg hjk]
        by_cases hin : 256 ≤ j ∧ j < 256 + k
        · rw [if_pos hin, if_pos (by omega)]
        · rw [if_neg hin, if_neg (by omega)]
    · simp only [huc, false_and, if_false]
  refine wp_mono (wp_forUp I h0 hstep) fun _ s' hs' => ?_
  obtain ⟨hfree, hread⟩ := hs'
  refine ⟨⟨fun j hlo hj => ?_, fun j hj => ?_, fun u j hu hne' hj => ?_⟩, hfree⟩
  · rw [hread c j hc hj, if_pos rfl, if_pos ⟨hlo, by omega⟩]
  · rw [hread c j hc (by omega), if_pos rfl, if_neg (by omega)]
  · rw [hread u j hu hj, if_neg hne']

/-- The entries of the tables with a copy are empty or those of a table with the same label. -/
theorem copied_entry {u : Uptr} {L q j : Nat} (h : VmmInv own s)
    (hroot : own kmap.directory = some (top, 0)) (hs : Copied kmap.directory c s s')
    (hu : Function.update own c (some (top, 0)) u = some (L, q)) (hj : j < 512) :
    pteAt s'.mem u j = 0 ∨ ∃ v, own v = some (L, q) ∧ pteAt s'.mem u j = pteAt s.mem v j := by
  by_cases huc : u = c
  · subst huc
    rw [Function.update_self] at hu
    cases hu
    by_cases hlow : j < 256
    · exact Or.inl (hs.lower j hlow)
    · exact Or.inr ⟨_, hroot, hs.upper j (by omega) hj⟩
  · rw [Function.update_of_ne huc] at hu
    exact Or.inr ⟨u, hu, hs.other u j (h.frame u L q hu) huc hj⟩

/-- **A copy is one more top-level table** over the tables there are. -/
theorem vmmInv_copied (h : VmmInv own s) (hroot : own kmap.directory = some (top, 0))
    (hfree : s.free = c :: rest) (hs : Copied kmap.directory c s s') (hf : s'.free = rest) :
    VmmInv (Function.update own c (some (top, 0))) s' := by
  have hcm : c ∈ s.free := by rw [hfree]; exact List.mem_cons_self
  obtain ⟨hfc, hc⟩ := h.free c hcm
  have hnd := h.nodup
  rw [hfree, List.nodup_cons] at hnd
  have hold : ∀ u, u ≠ c → Function.update own c (some (top, 0)) u = own u := fun u hu =>
    Function.update_of_ne hu _ _
  have hnew : Function.update own c (some (top, 0)) c = some (top, 0) := Function.update_self _ _ _
  have hknown : ∀ u l, own u = some l → u ≠ c := by
    intro u l hu huc
    rw [huc, hc] at hu
    cases hu
  refine ⟨fun u L q j v f hu hj hk => ?_, fun u L q hu => ?_, fun u L q j hu hj => ?_,
    fun f hf' => ?_, hf ▸ hnd.2⟩
  · rcases copied_entry h hroot hs hu hj with h0 | ⟨w, hw, he⟩
    · rw [h0] at hk
      exact absurd (pageKind_next hk).1 (by decide)
    · rw [he] at hk
      obtain ⟨K, hK, hv⟩ := h.labelled w L q j v f hw hj hk
      exact ⟨K, hK, by rw [hold v (hknown v _ hv)]; exact hv⟩
  · by_cases huc : u = c
    · rw [huc]
      exact hfc
    · rw [hold u huc] at hu
      exact h.frame u L q hu
  · rcases copied_entry h hroot hs hu hj with h0 | ⟨w, hw, he⟩
    · rw [h0]
      exact entryOk_zero
    · rw [he]
      exact h.entries w L q j hw hj
  · rw [hf] at hf'
    have hfm : f ∈ s.free := by rw [hfree]; exact List.mem_cons_of_mem _ hf'
    have hne : f ≠ c := fun heq => hnd.1 (heq ▸ hf')
    exact ⟨(h.free f hfm).1, by rw [hold f hne]; exact (h.free f hfm).2⟩

/-- **`vmm_make_page_map` copies the upper half.** -/
theorem wp_vmmMakePageMap {fiveLevel : Bool} (h : VmmInv own s)
    (hlev : kmap.level = if fiveLevel then .PML5 else .PML4)
    (hroot : own kmap.directory = some (top, 0)) (hfree : s.free = c :: rest) :
    wp (vmmMakePageMap fiveLevel kmap) s fun p s' =>
      p = { level := kmap.level, directory := c } ∧ Copied kmap.directory c s s' ∧
        s'.free = rest := by
  have hcm : c ∈ s.free := by rw [hfree]; exact List.mem_cons_self
  obtain ⟨hfc, hc⟩ := h.free c hcm
  have hne : kmap.directory ≠ c := by
    intro heq
    rw [heq, hc] at hroot
    cases hroot
  have hcopy := wp_copyUpper (s := { s with free := rest }) hfc (h.frame _ _ _ hroot) hne
  unfold vmmMakePageMap
  rw [wp_bind, wp_pmmAllocFrame hfree, wp_bind]
  refine wp_mono hcopy fun _ s' hs' => ?_
  rw [wp_pure, ← hlev]
  exact ⟨rfl, ⟨hs'.1.upper, hs'.1.lower, hs'.1.other⟩, hs'.2⟩

end Copy

/-! ## 3. Runs -/

/-- The memory, and the page maps made so far. -/
structure KernelState where
  vmm : VmmState
  tasks : List PageMap

/-- The calls of the kernel. -/
inductive KernelCall where
  | make
  | map (va pa flags : U64) (size : Usize)
  | unmap (va : U64)

/-- A call that works on the memory. -/
def onVmm {α : Type} (x : Prog Fault VmmState α) : Prog Fault KernelState α :=
  zoom KernelState.vmm (fun st vmm => { st with vmm }) x

def KernelCall.run (pages1gb fiveLevel : Bool) (kmap : PageMap) :
    KernelCall → Prog Fault KernelState Unit
  | .make => do
      let p ← onVmm (vmmMakePageMap fiveLevel kmap)
      modify fun st => { st with tasks := p :: st.tasks }
  | .map va pa flags size => onVmm (vmmMap pages1gb kmap va pa flags size)
  | .unmap va => onVmm (vmmUnmap kmap va)

/-- The arguments of the calls: addresses of the upper half, and frames enough. -/
def KernelCall.Valid (pages1gb : Bool) (kmap : PageMap) (st : KernelState) : KernelCall → Prop
  | .make => st.vmm.free ≠ []
  | .map va pa flags size => MapArgs va pa flags size ∧ 256 ≤ topSlot kmap va ∧
      mapFrames pages1gb size ≤ st.vmm.free.length
  | .unmap va => 256 ≤ topSlot kmap va

/-- The call fills no empty top-level entry once there are copies. -/
def KernelCall.KeepsHalf (kmap : PageMap) (st : KernelState) : KernelCall → Prop
  | .map va _ _ _ =>
      ptePresent (pteAt st.vmm.mem kmap.directory (topSlot kmap va)) = true ∨ st.tasks = []
  | _ => True

/-- The kernel's page map as the bootloader leaves it: tables that form a tree. -/
structure KernelStart (fiveLevel : Bool) (kmap : PageMap) (st : KernelState) : Prop where
  level : kmap.level = if fiveLevel then .PML5 else .PML4
  tables : ∃ own, VmmInv own st.vmm ∧ own kmap.directory = some (kmap.level.num, 0)
  tasks : st.tasks = []

/-- The states the kernel reaches by valid calls that meet `ok`. -/
inductive KernelRun (pages1gb fiveLevel : Bool) (kmap : PageMap)
    (ok : KernelState → KernelCall → Prop) : KernelState → Prop where
  | start {st : KernelState} (h : KernelStart fiveLevel kmap st) :
      KernelRun pages1gb fiveLevel kmap ok st
  | call {st st' : KernelState} (h : KernelRun pages1gb fiveLevel kmap ok st) (call : KernelCall)
      (hv : call.Valid pages1gb kmap st) (hok : ok st call)
      (hrun : call.run pages1gb fiveLevel kmap st = .ok ((), st')) :
      KernelRun pages1gb fiveLevel kmap ok st'

/-- Every page map resolves the upper half as the kernel's does. -/
def HalfAgrees (kmap : PageMap) (st : KernelState) : Prop :=
  ∀ p ∈ st.tasks, ∀ x, 256 ≤ topSlot kmap x →
    resolve st.vmm.mem p x = resolve st.vmm.mem kmap x

/-- Two top-level entries that lead nowhere, or to one table. -/
def SameTable (e e' : U64) : Prop :=
  (ptePresent e = false ∧ ptePresent e' = false) ∨ ∃ c, IsTable e c ∧ IsTable e' c

/-- A copy whose entries lead where the kernel's lead. -/
structure IsCopy (own : Uptr → Option (Nat × Nat)) (kmap : PageMap) (m : Mem) (p : PageMap) :
    Prop where
  level : p.level = kmap.level
  root : own p.directory = some (kmap.level.num, 0)
  apart : p.directory ≠ kmap.directory
  same : ∀ i, 256 ≤ i → i < 512 →
    SameTable (pteAt m kmap.directory i) (pteAt m p.directory i)

structure HalfInv (own : Uptr → Option (Nat × Nat)) (fiveLevel : Bool) (kmap : PageMap)
    (st : KernelState) : Prop where
  level : kmap.level = if fiveLevel then .PML5 else .PML4
  inv : VmmInv own st.vmm
  root : MapRoot own kmap
  copies : ∀ p ∈ st.tasks, IsCopy own kmap st.vmm.mem p

section Runs

variable {pages1gb fiveLevel : Bool} {kmap p : PageMap} {own own' : Uptr → Option (Nat × Nat)}
  {s s' : VmmState} {st st' : KernelState} {va pa flags : U64} {size : Usize}

/-- A copy whose entries lead where the kernel's lead resolves what the kernel's resolves. -/
theorem resolve_isCopy (h : IsCopy own kmap s.mem p) (hr : MapRoot own kmap) {x : U64}
    (hx : 256 ≤ topSlot kmap x) : resolve s.mem p x = resolve s.mem kmap x := by
  have hnum := mapRoot_num hr
  have hsame := h.same _ hx (slot_lt _ _)
  rw [resolve_eq _ (by rw [h.level]; exact hnum), resolve_eq _ hnum, h.level]
  obtain ⟨K, hK⟩ : ∃ K, kmap.level.num = K + 1 := ⟨kmap.level.num - 1, by omega⟩
  unfold topSlot at hsame
  rw [hK, Nat.add_sub_cancel] at hsame
  rw [hK]
  rcases hsame with ⟨hk, hp⟩ | ⟨c, hk, hp⟩
  · rw [view_absent (pageKind_absent hp), view_absent (pageKind_absent hk)]
  · rw [view_next (isTable_kind hp (by omega)), view_next (isTable_kind hk (by omega))]

theorem halfAgrees_of_inv (h : HalfInv own fiveLevel kmap st) : HalfAgrees kmap st :=
  fun p hp _ hx => resolve_isCopy (h.copies p hp) h.root hx

/-- A call for the kernel that leaves the entry it starts from leading where it led. -/
theorem isCopy_of_top {va : U64} (h : IsCopy own kmap s.mem p) (hr : MapRoot own kmap)
    (ht : TopMapped kmap va own own' s s')
    (hentry : ptePresent (pteAt s.mem kmap.directory (topSlot kmap va)) = true ∨
      pteAt s'.mem kmap.directory (topSlot kmap va) =
        pteAt s.mem kmap.directory (topSlot kmap va)) : IsCopy own' kmap s'.mem p := by
  refine ⟨h.level, ht.grow.keep _ _ _ h.root, h.apart, fun i hlo hhi => ?_⟩
  rw [ht.top.off _ _ i h.root hhi fun hsame => h.apart hsame.1]
  by_cases hi : i = topSlot kmap va
  · rcases h.same i hlo hhi with habsent | ⟨c, hk, hp⟩
    · rcases hentry with hp | hkept
      · rw [hi, hp] at habsent
        cases habsent.1
      · rw [hi] at habsent ⊢
        rw [hkept]
        exact Or.inl habsent
    · rw [hi] at hk hp ⊢
      exact Or.inr ⟨c, ht.top.table c hk, hp⟩
  · rw [ht.top.off _ _ i hr.root hhi fun hsame => hi hsame.2]
    exact h.same i hlo hhi

/-- An entry of a top-level table leads where it leads. -/
theorem sameTable_refl {t : Uptr} {L q i : Nat} (h : VmmInv own s) (ht : own t = some (L, q))
    (hL : 3 < L) (hi : i < 512) : SameTable (pteAt s.mem t i) (pteAt s.mem t i) := by
  cases hp : ptePresent (pteAt s.mem t i) with
  | false => exact Or.inl ⟨hp, hp⟩
  | true =>
      have hok := h.entries t L q i ht hi hp (by omega)
      cases hl : pteLarge (pteAt s.mem t i) with
      | true =>
          rw [if_pos hl] at hok
          omega
      | false =>
          rw [if_neg (by simp [hl])] at hok
          exact Or.inr ⟨hwTable (pteAt s.mem t i), ⟨hp, hl, hok, rfl⟩, hp, hl, hok, rfl⟩

theorem halfInv_start (h : KernelStart fiveLevel kmap st) :
    ∃ own, HalfInv own fiveLevel kmap st := by
  obtain ⟨own, hinv, hroot⟩ := h.tables
  refine ⟨own, h.level, hinv, ⟨?_, hroot⟩, fun p hp => ?_⟩
  · rw [h.level]
    cases fiveLevel with
    | false => exact Or.inl rfl
    | true => exact Or.inr rfl
  · rw [h.tasks] at hp
    cases hp

/-- The state after a page map was made. -/
structure Made (kmap : PageMap) (st st' : KernelState) : Prop where
  tasks : st'.tasks ≠ []
  frames : st'.vmm.free.length + 1 = st.vmm.free.length
  kernel : ∀ i, i < 512 →
    pteAt st'.vmm.mem kmap.directory i = pteAt st.vmm.mem kmap.directory i

/-- A new page map is one more copy. -/
theorem wp_make (pages1gb : Bool) (h : HalfInv own fiveLevel kmap st) (hv : st.vmm.free ≠ []) :
    wp (KernelCall.run pages1gb fiveLevel kmap .make) st
      fun _ st' => (∃ own', HalfInv own' fiveLevel kmap st') ∧ Made kmap st st' := by
  obtain ⟨c, rest, hfree⟩ := List.exists_cons_of_ne_nil hv
  obtain ⟨hfc, hc⟩ := h.inv.free c (by rw [hfree]; exact List.mem_cons_self)
  have hnum := mapRoot_num h.root
  unfold KernelCall.run onVmm
  rw [wp_bind, wp_zoom]
  refine wp_mono (wp_vmmMakePageMap h.inv h.level h.root.root hfree) fun p s' hp => ?_
  obtain ⟨rfl, hcopied, hfree'⟩ := hp
  rw [wp_modify]
  have hold : ∀ u, own u ≠ none → u ≠ c := fun u hu huc => hu (by rw [huc, hc])
  have hkdir := hold kmap.directory (by rw [h.root.root]; exact Option.some_ne_none _)
  have hkeep : ∀ u, u ≠ c →
      Function.update own c (some (kmap.level.num, 0)) u = own u := fun u hu =>
    Function.update_of_ne hu _ _
  have hkernel : ∀ i, i < 512 →
      pteAt s'.mem kmap.directory i = pteAt st.vmm.mem kmap.directory i := fun i hi =>
    hcopied.other _ i (h.inv.frame _ _ _ h.root.root) hkdir hi
  refine ⟨⟨_, h.level, vmmInv_copied h.inv h.root.root hfree hcopied hfree',
    ⟨h.root.level, by rw [hkeep _ hkdir]; exact h.root.root⟩, fun p hp => ?_⟩,
    List.cons_ne_nil _ _, by rw [hfree, hfree']; rfl, hkernel⟩
  rcases List.mem_cons.mp hp with rfl | hp
  · refine ⟨rfl, Function.update_self _ _ _, hkdir.symm, fun i hlo hhi => ?_⟩
    show SameTable (pteAt s'.mem kmap.directory i) (pteAt s'.mem c i)
    rw [hkernel i hhi, hcopied.upper i hlo hhi]
    exact sameTable_refl h.inv h.root.root (by omega) hhi
  · have hcopy := h.copies p hp
    have hpdir := hold p.directory (by rw [hcopy.root]; exact Option.some_ne_none _)
    refine ⟨hcopy.level, by rw [hkeep _ hpdir]; exact hcopy.root, hcopy.apart,
      fun i hlo hhi => ?_⟩
    show SameTable (pteAt s'.mem kmap.directory i) (pteAt s'.mem p.directory i)
    rw [hkernel i hhi, hcopied.other _ i (h.inv.frame _ _ _ hcopy.root) hpdir hhi]
    exact hcopy.same i hlo hhi

/-- After a call fills an empty top-level entry, the copies miss it. -/
theorem not_halfAgrees {p : PageMap} (h : HalfInv own fiveLevel kmap st) (hp : p ∈ st.tasks)
    (hslot : 256 ≤ topSlot kmap va)
    (habsent : ptePresent (pteAt st.vmm.mem kmap.directory (topSlot kmap va)) = false)
    (ht : TopMapped kmap va own own' st.vmm s')
    (hmapped : anyView.look s'.mem (pageNumber kmap.level.num va) kmap.level.num kmap.directory =
      some ()) : ¬ HalfAgrees kmap { st with vmm := s' } := by
  intro hagrees
  have hcopy := h.copies p hp
  have hnum := mapRoot_num h.root
  have hentry : ptePresent (pteAt s'.mem p.directory (topSlot kmap va)) = false := by
    rw [ht.top.off _ _ _ hcopy.root (slot_lt _ _) fun hsame => hcopy.apart hsame.1]
    rcases hcopy.same _ hslot (slot_lt _ _) with hsame | ⟨c, hk, _⟩
    · exact hsame.2
    · rw [hk.present] at habsent
      cases habsent
  have hresolve := hagrees p hp va hslot
  obtain ⟨K, hK⟩ : ∃ K, kmap.level.num = K + 1 := ⟨kmap.level.num - 1, by omega⟩
  obtain ⟨hit, hwalk, -⟩ := Option.map_eq_some_iff.mp hmapped
  have hnone : walk s'.mem (pageNumber kmap.level.num va) kmap.level.num p.directory = none := by
    unfold topSlot at hentry
    rw [hK, Nat.add_sub_cancel] at hentry
    rw [hK, walk_absent hentry]
  unfold resolve hwWalk at hresolve
  rw [hcopy.level, hnone, hwalk] at hresolve
  cases hresolve

/-- **One call keeps the halves in agreement exactly when it fills no empty top-level entry that
    has been copied.** -/
theorem wp_kernelCall (h : HalfInv own fiveLevel kmap st) (call : KernelCall)
    (hv : call.Valid pages1gb kmap st) : wp (call.run pages1gb fiveLevel kmap) st fun _ st' =>
      (call.KeepsHalf kmap st → ∃ own', HalfInv own' fiveLevel kmap st') ∧
        (HalfAgrees kmap st' → call.KeepsHalf kmap st) := by
  cases call with
  | make => exact wp_mono (wp_make pages1gb h hv) fun _ st' hst' => ⟨fun _ => hst'.1, fun _ => trivial⟩
  | unmap va =>
      unfold KernelCall.run onVmm
      rw [wp_zoom]
      refine wp_mono (wp_vmmUnmap_top va h.inv h.root) fun _ s' hs' => ⟨fun _ => ?_, fun _ => trivial⟩
      obtain ⟨htop, hkept⟩ := hs'
      exact ⟨own, h.level, htop.grow.inv, h.root,
        fun p hp => isCopy_of_top (h.copies p hp) h.root htop (Or.inr hkept)⟩
  | map va pa flags size =>
      obtain ⟨ha, hslot, hfree⟩ := hv
      unfold KernelCall.run onVmm
      rw [wp_zoom]
      refine wp_mono (wp_vmmMap_top pages1gb ha h.inv h.root hfree) fun _ s' hs' => ?_
      obtain ⟨own', htop, hmapped⟩ := hs'
      refine ⟨fun hkeeps => ⟨own', h.level, htop.grow.inv, mapRoot_grow h.root htop.grow,
        fun p hp => ?_⟩, fun hagrees => ?_⟩
      · rcases hkeeps with hpresent | hnone
        · exact isCopy_of_top (h.copies p hp) h.root htop (Or.inl hpresent)
        · change p ∈ st.tasks at hp
          rw [hnone] at hp
          cases hp
      · by_contra hbad
        have habsent : ptePresent (pteAt st.vmm.mem kmap.directory (topSlot kmap va)) = false ∧
            st.tasks ≠ [] := by
          simpa [KernelCall.KeepsHalf] using hbad
        obtain ⟨p, tasks, htasks⟩ := List.exists_cons_of_ne_nil habsent.2
        exact not_halfAgrees h (by rw [htasks]; exact List.mem_cons_self) hslot habsent.1 htop
          hmapped hagrees

/-- The entry a call maps through is present. -/
theorem top_present {m : Mem} (hr : MapRoot own kmap)
    (hmapped : anyView.look m (pageNumber kmap.level.num va) kmap.level.num kmap.directory =
      some ()) : ptePresent (pteAt m kmap.directory (topSlot kmap va)) = true := by
  have hnum := mapRoot_num hr
  obtain ⟨K, hK⟩ : ∃ K, kmap.level.num = K + 1 := ⟨kmap.level.num - 1, by omega⟩
  obtain ⟨hit, hwalk, -⟩ := Option.map_eq_some_iff.mp hmapped
  by_contra hbad
  have hentry := Bool.eq_false_iff.mpr hbad
  unfold topSlot at hentry
  rw [hK, Nat.add_sub_cancel] at hentry
  rw [hK, walk_absent hentry] at hwalk
  cases hwalk

theorem wp_kernelMap (h : HalfInv own fiveLevel kmap st)
    (hv : (KernelCall.map va pa flags size).Valid pages1gb kmap st) :
    wp ((KernelCall.map va pa flags size).run pages1gb fiveLevel kmap) st fun _ st' =>
      ptePresent (pteAt st'.vmm.mem kmap.directory (topSlot kmap va)) = true ∧
        st'.tasks = st.tasks := by
  obtain ⟨ha, -, hfree⟩ := hv
  unfold KernelCall.run onVmm
  rw [wp_zoom]
  refine wp_mono (wp_vmmMap_top pages1gb ha h.inv h.root hfree) fun _ s' hs' => ?_
  obtain ⟨own', htop, hmapped⟩ := hs'
  exact ⟨top_present h.root hmapped, rfl⟩

theorem wp_kernelUnmap (h : HalfInv own fiveLevel kmap st) (va : U64) :
    wp ((KernelCall.unmap va).run pages1gb fiveLevel kmap) st fun _ st' =>
      pteAt st'.vmm.mem kmap.directory (topSlot kmap va) =
        pteAt st.vmm.mem kmap.directory (topSlot kmap va) ∧ st'.tasks = st.tasks := by
  unfold KernelCall.run onVmm
  rw [wp_zoom]
  exact wp_mono (wp_vmmUnmap_top va h.inv h.root) fun _ s' hs' => ⟨hs'.2, rfl⟩

theorem halfInv_of_run (h : KernelRun pages1gb fiveLevel kmap
    (fun st call => call.KeepsHalf kmap st) st) : ∃ own, HalfInv own fiveLevel kmap st := by
  induction h with
  | start h => exact halfInv_start h
  | call _ call hv hok hrun ih =>
      obtain ⟨own, hinv⟩ := ih
      exact ((wp_of_eq hrun).mp (wp_kernelCall hinv call hv)).1 hok

/-- **The kernel's half is the same in every page map**, in every state reached by calls that fill
    no empty top-level entry once a page map was made; and the first call that does ends it. -/
theorem kernelHalf_runs (h : KernelRun pages1gb fiveLevel kmap
    (fun st call => call.KeepsHalf kmap st) st) :
    HalfAgrees kmap st ∧ ∀ call : KernelCall, call.Valid pages1gb kmap st →
      (wp (call.run pages1gb fiveLevel kmap) st (fun _ st' => HalfAgrees kmap st') ↔
        call.KeepsHalf kmap st) := by
  obtain ⟨own, hinv⟩ := halfInv_of_run h
  refine ⟨halfAgrees_of_inv hinv, fun call hv => ⟨fun hagrees => ?_, fun hok => ?_⟩⟩
  · obtain ⟨_, st', -, hst', hagrees'⟩ := wp_and (wp_kernelCall hinv call hv) hagrees
    exact hst'.2 hagrees'
  · refine wp_mono (wp_kernelCall hinv call hv) fun _ st' hst' => ?_
    obtain ⟨own', hinv'⟩ := hst'.1 hok
    exact halfAgrees_of_inv hinv'

end Runs

/-- An empty page map is a start. -/
theorem zeroed_start : KernelStart false zeroedMap { vmm := zeroedState, tasks := [] } :=
  ⟨rfl, ⟨_, (isPageMap_empty zeroedMap_empty).inv, (isPageMap_empty zeroedMap_empty).root.root⟩, rfl⟩

/-- Two pages of the kernel, and one of its heap under another top-level entry. -/
def kernelPage : KernelCall := .map 0xFFFFFFFF80000000 0x200000 MM_PT_FLAG_WRITE MM_PAGE_4KB

def nextPage : KernelCall := .map 0xFFFFFFFF80001000 0x201000 MM_PT_FLAG_WRITE MM_PAGE_4KB

def heapPage : KernelCall := .map 0xFFFFC00000000000 0x400000 MM_PT_FLAG_WRITE MM_PAGE_4KB

theorem kernelPage_args : MapArgs 0xFFFFFFFF80000000 0x200000 MM_PT_FLAG_WRITE MM_PAGE_4KB :=
  ⟨Or.inl rfl, rfl, rfl, by simp, rfl⟩

theorem nextPage_args : MapArgs 0xFFFFFFFF80001000 0x201000 MM_PT_FLAG_WRITE MM_PAGE_4KB :=
  ⟨Or.inl rfl, rfl, rfl, by simp, rfl⟩

theorem heapPage_args : MapArgs 0xFFFFC00000000000 0x400000 MM_PT_FLAG_WRITE MM_PAGE_4KB :=
  ⟨Or.inl rfl, rfl, rfl, by simp, rfl⟩

/-- The kernel's first page leaves the other top-level entries empty. -/
theorem wp_kernelPage {own : Uptr → Option (Nat × Nat)}
    (h : HalfInv own false zeroedMap { vmm := zeroedState, tasks := [] }) :
    wp (kernelPage.run true false zeroedMap) { vmm := zeroedState, tasks := [] } fun _ st' =>
      6 ≤ st'.vmm.free.length ∧ pteAt st'.vmm.mem zeroedMap.directory 384 = 0 := by
  have hleaf := leafArgs_of_mapArgs (L := 1) kernelPage_args (by omega) rfl
  unfold kernelPage KernelCall.run onVmm
  rw [wp_zoom]
  refine wp_mono (wp_vmmMap_4KB true kernelPage_args h.inv h.root
    (zeroedState_frames (by decide))) fun _ s' hp => ?_
  obtain ⟨own', hp⟩ := hp
  have hframes := put_frames hp
  have htop := (topMapped_put h.inv h.root hleaf hp).top
  refine ⟨?_, ?_⟩
  · have hlen : zeroedState.free.length = 9 := rfl
    have hnum : zeroedMap.level.num = 4 := rfl
    show 6 ≤ s'.free.length
    simp only [hlen, hnum] at hframes
    omega
  · refine (htop.off _ _ 384 h.root.root (by omega) fun hsame => ?_).trans
      (zeroedMap_empty.empty 384 (by omega))
    exact absurd hsame.2 (by decide)

/-- The kernel maps a page, makes a page map, and then maps the next page and takes it away again:
    both are under an entry that is present, and the halves agree. The first page of the heap is
    not, and would end this. -/
theorem kernelHalf_runs_next : ∃ st₁ st₂ st₃ st₄ : KernelState,
    kernelPage.run true false zeroedMap { vmm := zeroedState, tasks := [] } = .ok ((), st₁) ∧
      KernelCall.make.run true false zeroedMap st₁ = .ok ((), st₂) ∧
      nextPage.run true false zeroedMap st₂ = .ok ((), st₃) ∧
      (KernelCall.unmap 0xFFFFFFFF80001000).run true false zeroedMap st₃ = .ok ((), st₄) ∧
      st₄.tasks ≠ [] ∧ ptePresent (pteAt st₄.vmm.mem zeroedMap.directory 511) = true ∧
      HalfAgrees zeroedMap st₃ ∧ HalfAgrees zeroedMap st₄ ∧
      ¬ wp (heapPage.run true false zeroedMap) st₂ fun _ st' => HalfAgrees zeroedMap st' := by
  obtain ⟨own₀, h₀⟩ := halfInv_start zeroed_start
  have hv₁ : kernelPage.Valid true zeroedMap { vmm := zeroedState, tasks := [] } :=
    ⟨kernelPage_args, by decide, zeroedState_frames (by decide)⟩
  obtain ⟨_, st₁, hrun₁, hcall₁, ⟨hframes₁, hempty₁⟩, hpresent₁, -⟩ :=
    wp_and (wp_kernelCall h₀ kernelPage hv₁) (wp_and (wp_kernelPage h₀) (wp_kernelMap h₀ hv₁))
  obtain ⟨own₁, h₁⟩ := hcall₁.1 (Or.inr rfl)
  have hv₂ : KernelCall.make.Valid true zeroedMap st₁ := List.ne_nil_of_length_pos (by omega)
  obtain ⟨_, st₂, hrun₂, ⟨own₂, h₂⟩, hmade⟩ := wp_make true h₁ hv₂
  have hframes₂ := hmade.frames
  have hfour : mapFrames true MM_PAGE_4KB ≤ st₂.vmm.free.length := by
    rw [mapFrames, if_neg (by decide)]
    omega
  have hslot : topSlot zeroedMap 0xFFFFFFFF80001000 = 511 := by decide
  have hslot₁ : topSlot zeroedMap 0xFFFFFFFF80000000 = 511 := by decide
  have hheap : topSlot zeroedMap 0xFFFFC00000000000 = 384 := by decide
  have hpresent₂ : ptePresent (pteAt st₂.vmm.mem zeroedMap.directory 511) = true := by
    rw [hmade.kernel 511 (by omega), ← hslot₁]
    exact hpresent₁
  have hv₃ : nextPage.Valid true zeroedMap st₂ := ⟨nextPage_args, by decide, hfour⟩
  have hok₃ : nextPage.KeepsHalf zeroedMap st₂ := Or.inl (by rw [hslot]; exact hpresent₂)
  obtain ⟨_, st₃, hrun₃, hcall₃, hpresent₃, htasks₃⟩ :=
    wp_and (wp_kernelCall h₂ nextPage hv₃) (wp_kernelMap h₂ hv₃)
  obtain ⟨own₃, h₃⟩ := hcall₃.1 hok₃
  have hv₄ : (KernelCall.unmap 0xFFFFFFFF80001000).Valid true zeroedMap st₃ :=
    show 256 ≤ topSlot zeroedMap 0xFFFFFFFF80001000 by decide
  have hunmap : wp ((KernelCall.unmap 0xFFFFFFFF80001000).run true false zeroedMap) st₃ _ :=
    wp_kernelUnmap h₃ 0xFFFFFFFF80001000
  obtain ⟨_, st₄, hrun₄, hentry₄, htasks₄⟩ := hunmap
  have hreach₂ : KernelRun true false zeroedMap (fun st call => call.KeepsHalf zeroedMap st) st₂ :=
    .call (.call (.start zeroed_start) _ hv₁ (Or.inr rfl) hrun₁) _ hv₂ trivial hrun₂
  have hreach₃ := hreach₂.call _ hv₃ hok₃ hrun₃
  refine ⟨st₁, st₂, st₃, st₄, hrun₁, hrun₂, hrun₃, hrun₄, ?_, ?_, (kernelHalf_runs hreach₃).1,
    (kernelHalf_runs (hreach₃.call _ hv₄ trivial hrun₄)).1, fun hagrees => ?_⟩
  · rw [htasks₄, htasks₃]
    exact hmade.tasks
  · rw [hslot] at hentry₄ hpresent₃
    rw [hentry₄]
    exact hpresent₃
  · rcases ((kernelHalf_runs hreach₂).2 heapPage ⟨heapPage_args, by decide, hfour⟩).mp hagrees with
      hpresent | hnone
    · rw [hheap, hmade.kernel 384 (by omega), hempty₁] at hpresent
      exact absurd hpresent (by decide)
    · exact hmade.tasks hnone

/-- The heap grows into an empty top-level entry after a page map was made. -/
theorem kernelHalf_lost : ¬ ∀ st, KernelRun true false zeroedMap (fun _ _ => True) st →
    HalfAgrees zeroedMap st := by
  intro hall
  obtain ⟨own₀, h₀⟩ := halfInv_start zeroed_start
  have hslot : 256 ≤ topSlot zeroedMap 0xFFFFFFFF80000000 := by decide
  have hv₁ : kernelPage.Valid true zeroedMap { vmm := zeroedState, tasks := [] } :=
    ⟨kernelPage_args, hslot, zeroedState_frames (by decide)⟩
  obtain ⟨_, st₁, hrun₁, hcall₁, hframes₁, hempty₁⟩ :=
    wp_and (wp_kernelCall h₀ kernelPage hv₁) (wp_kernelPage h₀)
  obtain ⟨own₁, h₁⟩ := hcall₁.1 (Or.inr rfl)
  have hv₂ : KernelCall.make.Valid true zeroedMap st₁ := List.ne_nil_of_length_pos (by omega)
  obtain ⟨_, st₂, hrun₂, ⟨own₂, h₂⟩, hmade⟩ := wp_make true h₁ hv₂
  have hframes₂ := hmade.frames
  have hv₃ : heapPage.Valid true zeroedMap st₂ :=
    ⟨heapPage_args, by decide, by rw [mapFrames, if_neg (by decide)]; omega⟩
  obtain ⟨_, st₃, hrun₃, -, hkeeps⟩ := wp_kernelCall h₂ heapPage hv₃
  have hreached : KernelRun true false zeroedMap (fun _ _ => True) st₃ :=
    .call (.call (.call (.start zeroed_start) _ hv₁ trivial hrun₁) _ hv₂ trivial hrun₂) _ hv₃
      trivial hrun₃
  rcases hkeeps (hall st₃ hreached) with hpresent | hnone
  · rw [show topSlot zeroedMap 0xFFFFC00000000000 = 384 by decide, hmade.kernel 384 (by omega),
      hempty₁] at hpresent
    exact absurd hpresent (by decide)
  · exact hmade.tasks hnone

end Slightx
