/-
  File:      Slightx/Mem/VmmWay.lean
  Subject:   The way `vmm_map` takes through the tables.

  `vmm_map_impl` goes down from the directory with `pd_get_or_create` and writes a leaf. `Leads`
  is the way down as a run of such descents from a state in which nothing was touched yet; the
  theorems about the parts of the program (`wp_vmmMap_4KB`, `wp_vmmMap_2MB`, `wp_vmmMap_leaf_1GB`,
  `wp_vmmMap_pieces_1GB`) say which way it went and which leaf it wrote. What mapping does to
  addresses, to permissions and to other page maps is read off from there, by an induction
  over the way.
-/
import Slightx.Mem.VmmTree

namespace Slightx

open Lib

/-! ## 1. Ways down -/

/-- The entry for `key` in a table of level `K + 1`. -/
abbrev slot (key K : Nat) : Nat := key / 512 ^ K % 512

/-- From the state `s` descents for `key` led from the directory `root` of level `top` to the
    table `t` of level `K`, in the state `s'`. -/
inductive Leads (key top : Nat) (root : Uptr) (tf : U64) (own : Uptr → Option (Nat × Nat))
    (s : VmmState) : (Uptr → Option (Nat × Nat)) → VmmState → Nat → Uptr → Prop where
  | root : Leads key top root tf own s own s top root
  | down {own₁ own₂ : Uptr → Option (Nat × Nat)} {s₁ s₂ : VmmState} {K : Nat} {t c : Uptr}
      (h : Leads key top root tf own s own₁ s₁ (K + 1) t)
      (hd : Descended own₁ own₂ s₁ s₂ t (slot key K) K (key / 512 ^ (K + 1)) tf c) :
      Leads key top root tf own s own₂ s₂ K c

/-- In the state `s` the lookup of `key` comes by table `t` of level `K`. -/
def Stage (own : Uptr → Option (Nat × Nat)) (s : VmmState) (top : Nat) (root : Uptr)
    (key K : Nat) (t : Uptr) : Prop :=
  own root = some (top, key / 512 ^ top) ∧
    ∃ g, Reach 512 pageKind (pteAt s.mem) key top root K t g

section Ways

variable {key top K : Nat} {root t c : Uptr} {tf : U64}
  {own own' own₁ : Uptr → Option (Nat × Nat)} {s s' s₁ : VmmState}

theorem stage_label (h : VmmInv own s) (hs : Stage own s top root key K t) :
    own t = some (K, key / 512 ^ K) := by
  obtain ⟨hroot, g, hreach⟩ := hs
  exact reach_label (by decide) h.labelled hroot hreach

theorem slot_lt (key K : Nat) : slot key K < 512 := Nat.mod_lt _ (by decide)

section Walk

variable {m : Mem} {u : Uptr} {L M : Nat} {g : Hit → Hit}

theorem walk_absent (hp : ptePresent (pteAt m t (slot key L)) = false) :
    walk m key (L + 1) t = none := by
  unfold walk
  rw [look, pageKind_absent hp]

theorem walk_leaf {hit : Hit} (hk : pageKind (L + 1) (pteAt m t (slot key L)) = .leaf hit) :
    walk m key (L + 1) t = some hit := by
  unfold walk
  rw [look, hk]

theorem walk_next (hc : IsTable (pteAt m t (slot key L)) c) (hL : L ≠ 0) :
    walk m key (L + 1) t = (walk m key L c).map (Hit.under (pteAt m t (slot key L))) := by
  unfold walk
  rw [look, isTable_kind hc (by omega)]

theorem walk_reach (h : Reach 512 pageKind (pteAt m) key L t M u g) :
    walk m key L t = (walk m key M u).map g := look_reach h

end Walk

/-- A descent leads to the next stage. -/
theorem stage_descended (h : VmmInv own s) (hs : Stage own s top root key (K + 1) t)
    (hK : K ≠ 0) (hd : Descended own own' s s' t (slot key K) K (key / 512 ^ (K + 1)) tf c) :
    Stage own' s' top root key K c := by
  have ht := stage_label h hs
  obtain ⟨hroot, g, hreach⟩ := hs
  have hreach' := reach_edit (by decide) h.labelled hd.edit ht (Nat.le_refl _) hroot hreach
  exact ⟨hd.grow.keep _ _ _ hroot, _, .down hreach' (isTable_kind hd.table (by omega))⟩

/-- The invariant and the stage at the end of a way. -/
theorem leads_stage (h : VmmInv own s) (hroot : own root = some (top, key / 512 ^ top))
    (hl : Leads key top root tf own s own' s' K t) (hK : K ≠ 0) :
    Grow own own' s s' ∧ Stage own' s' top root key K t := by
  induction hl with
  | root => exact ⟨grow_refl h, hroot, id, .here⟩
  | @down own₁ own₂ s₁ s₂ K t c _ hd ih =>
      obtain ⟨hgrow, hstage⟩ := ih (Nat.succ_ne_zero K)
      exact ⟨grow_trans hgrow hd.grow, stage_descended hgrow.inv hstage hK hd⟩

theorem leads_level (hl : Leads key top root tf own s own' s' K t) : K ≤ top := by
  induction hl with
  | root => exact Nat.le_refl _
  | down _ _ ih => omega

/-- Descents for any key leave the ways down alone: a table that is there is shared. -/
theorem reach_descended {key' L M p i : Nat} {r u : Uptr} {g : Hit → Hit} (h : VmmInv own s)
    (ht : own t = some (K + 1, p)) (hd : Descended own own' s s' t i K p tf c)
    (hr : own r = some (L, key' / 512 ^ L))
    (hreach : Reach 512 pageKind (pteAt s.mem) key' L r M u g) :
    ∃ g', Reach 512 pageKind (pteAt s'.mem) key' L r M u g' := by
  induction hreach with
  | here => exact ⟨id, .here⟩
  | @down M u v g f hdown hk ih =>
      obtain ⟨g', ih⟩ := ih
      have hu := reach_label (by decide) h.labelled hr hdown
      have hj := slot_lt key' M
      by_cases hsame : u = t ∧ slot key' M = i
      · obtain ⟨rfl, rfl⟩ := hsame
        rw [ht] at hu
        cases hu
        obtain ⟨hold, -, hK⟩ := isTable_of_next (h.entries u _ _ _ ht hj) hk
        have hv : v = c := by
          cases hd.how with
          | created hp _ _ => rw [hold.present] at hp; cases hp
          | shared hold' _ => rw [← hold.table, hold'.table]
          | split _ hl _ _ _ => rw [hold.small] at hl; cases hl
        subst hv
        exact ⟨_, .down ih (isTable_kind hd.table hK)⟩
      · rw [← hd.edit u _ (by rw [hu]; exact Option.some_ne_none _) hj hsame] at hk
        exact ⟨_, .down ih hk⟩

theorem stage_leads {key' top' M : Nat} {root' u : Uptr} (h : VmmInv own s)
    (hroot : own root = some (top, key / 512 ^ top)) (hs : Stage own s top' root' key' M u)
    (hl : Leads key top root tf own s own' s' K t) (hK : K ≠ 0) :
    Stage own' s' top' root' key' M u := by
  induction hl with
  | root => exact hs
  | @down own₁ own₂ s₁ s₂ K t c hw hd ih =>
      obtain ⟨hgrow, hstage⟩ := leads_stage h hroot hw (Nat.succ_ne_zero K)
      obtain ⟨hroot', g, hreach⟩ := ih (Nat.succ_ne_zero K)
      exact ⟨hd.grow.keep _ _ _ hroot',
        reach_descended hgrow.inv (stage_label hgrow.inv hstage) hd hroot' hreach⟩

/-- A way takes one frame for each level at most. -/
theorem leads_frames (hl : Leads key top root tf own s own' s' K t) :
    s.free.length + K ≤ s'.free.length + top := by
  induction hl with
  | root => exact Nat.le_refl _
  | down _ hd ih =>
      have hf := hd.frames
      omega

end Ways

/-! ## 2. The parts of `vmm_map_impl` -/

/-- A page map whose directory is labelled in `own`. -/
structure MapRoot (own : Uptr → Option (Nat × Nat)) (pmap : PageMap) : Prop where
  level : pmap.level = .PML4 ∨ pmap.level = .PML5
  root : own pmap.directory = some (pmap.level.num, 0)

theorem pageNumber_lt (top : Nat) (va : U64) : pageNumber top va < 512 ^ top := by
  unfold pageNumber
  have hpos : 0 < 4096 * 512 ^ top := Nat.mul_pos (by decide) (Nat.pow_pos (by decide))
  exact Nat.div_lt_of_lt_mul (Nat.mod_lt _ hpos)

theorem mapRoot_num {own : Uptr → Option (Nat × Nat)} {pmap : PageMap} (h : MapRoot own pmap) :
    pmap.level.num = 4 ∨ pmap.level.num = 5 := by
  rcases h.level with hl | hl
  · exact Or.inl (by rw [hl]; rfl)
  · exact Or.inr (by rw [hl]; rfl)

theorem mapRoot_label {own : Uptr → Option (Nat × Nat)} {pmap : PageMap} (h : MapRoot own pmap)
    {key : Nat} (hk : key < 512 ^ pmap.level.num) :
    own pmap.directory = some (pmap.level.num, key / 512 ^ pmap.level.num) := by
  rw [Nat.div_eq_of_lt hk]
  exact h.root

section Program

variable {pmap : PageMap} {va pa : Uptr} {tf flags : U64} {K : Nat} {t : Uptr}
  {own own₁ : Uptr → Option (Nat × Nat)} {s s₁ : VmmState}

/-- The way of a page map for an address. -/
abbrev Way (pmap : PageMap) (va : U64) (tf : U64) (own : Uptr → Option (Nat × Nat))
    (s : VmmState) (own' : Uptr → Option (Nat × Nat)) (s' : VmmState) (K : Nat) (t : Uptr) : Prop :=
  Leads (pageNumber pmap.level.num va) pmap.level.num pmap.directory tf own s own' s' K t

/-- One more descent on the way. -/
theorem wp_descend {level : PageMapLevel} {i : Nat} (h : VmmInv own s) (hr : MapRoot own pmap)
    (htf : TableFlags tf) (hw : Way pmap va tf own s own₁ s₁ (K + 1) t)
    (hi : i = slot (pageNumber pmap.level.num va) K) (hlev : DescendLevel level K)
    (hfree : s₁.free ≠ []) :
    wp (pdGetOrCreate t i level tf) s₁ fun c s' =>
      ∃ own', Way pmap va tf own s own' s' K c := by
  obtain ⟨hgrow, hstage⟩ := leads_stage h (mapRoot_label hr (pageNumber_lt _ va)) hw
    (Nat.succ_ne_zero K)
  subst hi
  refine wp_mono (wp_pdGetOrCreate hgrow.inv (stage_label hgrow.inv hstage) (slot_lt _ K) hlev htf
    hfree) fun c s' hd => ?_
  obtain ⟨own', hd⟩ := hd
  exact ⟨own', .down hw hd⟩

/-- The way to a table of level 4. -/
theorem wp_vmmMapPml4 (h : VmmInv own s) (hr : MapRoot own pmap) (htf : TableFlags tf)
    (hfree : s.free ≠ []) :
    wp (vmmMapPml4 pmap va tf) s fun t s' => ∃ own', Way pmap va tf own s own' s' 4 t := by
  have hroot : Way pmap va tf own s own s pmap.level.num pmap.directory := .root
  unfold vmmMapPml4
  rcases hr.level with hl | hl
  · have hnum : pmap.level.num = 4 := by rw [hl]; rfl
    rw [hl]
    exact (wp_pure _ _ _).mpr ⟨own, hnum ▸ hroot⟩
  · have hnum : pmap.level.num = 4 + 1 := by rw [hl]; rfl
    rw [hl]
    refine wp_descend h hr htf (hnum ▸ hroot) ?_ ⟨rfl, by decide⟩ hfree
    rw [hnum]
    exact pml5Index_eq va

/-- The way to a table of level 3, on two frames. -/
theorem wp_toPml3 (va : Uptr) (h : VmmInv own s) (hr : MapRoot own pmap) (htf : TableFlags tf)
    (hfree : 2 ≤ s.free.length) :
    wp (do
      let pml4 ← vmmMapPml4 pmap va tf
      pdGetOrCreate pml4 (pml4Index va) .PML4 tf) s
      fun t s' => ∃ own', Way pmap va tf own s own' s' 3 t := by
  rw [wp_bind]
  refine wp_mono (wp_vmmMapPml4 h hr htf (List.ne_nil_of_length_pos (by omega)))
    fun t s' hw => ?_
  obtain ⟨own', hw⟩ := hw
  have hframes := leads_frames hw
  have hnum := mapRoot_num hr
  exact wp_descend h hr htf hw (pml4Index_eq va hnum) ⟨rfl, by decide⟩
    (List.ne_nil_of_length_pos (by omega))

end Program

/-! ## 3. Leaves -/

/-- Arguments of `vmm_map` that are aligned and below 2^48, with flags beside the address. -/
structure MapArgs (va pa flags : U64) (size : Usize) : Prop where
  sizes : size = MM_PAGE_4KB ∨ size = MM_PAGE_2MB ∨ size = MM_PAGE_1GB
  va_aligned : va.toNat % size.toNat = 0
  pa_aligned : pa.toNat % size.toNat = 0
  pa_low : pa.toNat < 2 ^ 48
  flags : flags &&& 0x000FFFFFFFFFF000 = 0#64

/-- The flags of a leaf of level `L`. -/
def leafFlags (flags : U64) (L : Nat) : U64 :=
  if L = 1 then flags ||| MM_PT_FLAG_VALID else flags ||| MM_PT_FLAG_VALID ||| MM_PT_FLAG_LARGE

/-- The leaf of level `L` that `vmm_map_impl` writes. -/
def leafPte (pa flags : U64) (L : Nat) : U64 := pa ||| leafFlags flags L

/-- A leaf of level `L` for the page at `pa`. -/
structure LeafArgs (pa flags : U64) (L : Nat) : Prop where
  level : L = 1 ∨ L = 2 ∨ L = 3
  aligned : pa.toNat % pageBytes L = 0
  low : pa.toNat < 2 ^ 48
  flags : flags &&& 0x000FFFFFFFFFF000 = 0#64

/-- The leaf is beside the address bits what its flags are. -/
def Plain (L : Nat) (e : U64) : Prop :=
  ptePresent e = true → L = 1 ∨ pteLarge e = true →
    e.toNat / 2 ^ 48 % 16 = 0 ∧ e.toNat % 2 ^ 52 % pageBytes L / 4096 = 0

section Leaves

variable {pa flags : U64} {L : Nat}

theorem leafArgs_frame (h : LeafArgs pa flags L) : FrameOk pa := by
  have ha := h.aligned
  refine ⟨?_, h.low⟩
  rcases h.level with rfl | rfl | rfl
  all_goals simp only [pageBytes] at ha
  all_goals omega

theorem leafFlags_addr (h : LeafArgs pa flags L) :
    leafFlags flags L &&& 0x000FFFFFFFFFF000 = 0#64 := by
  unfold leafFlags
  split
  · rw [BitVec.and_or_distrib_right, h.flags]
    decide
  · rw [BitVec.and_or_distrib_right, BitVec.and_or_distrib_right, h.flags]
    decide

/-- The page number of a leaf. -/
theorem leafPte_page (h : LeafArgs pa flags L) :
    (leafPte pa flags L).toNat % 2 ^ 52 / 4096 = pa.toNat / 4096 := by
  have hlow := h.low
  unfold leafPte
  rw [page_or (leafFlags_addr h)]
  omega

theorem leafFlags_valid (flags : U64) (L : Nat) : (leafFlags flags L).getLsbD 0 = true := by
  unfold leafFlags
  split
  · rw [BitVec.getLsbD_or]
    simp [MM_PT_FLAG_VALID]
  · rw [BitVec.getLsbD_or, BitVec.getLsbD_or]
    simp [MM_PT_FLAG_VALID]

theorem leafPte_present (h : LeafArgs pa flags L) : ptePresent (leafPte pa flags L) = true := by
  rw [ptePresent_eq, leafPte, or_bit (leafArgs_frame h) (Or.inl (by decide)), leafFlags_valid]

theorem leafPte_large (h : LeafArgs pa flags L) (hL : L ≠ 1) :
    pteLarge (leafPte pa flags L) = true := by
  rw [pteLarge_eq, leafPte, or_bit (leafArgs_frame h) (Or.inl (by decide)), leafFlags, if_neg hL,
    BitVec.getLsbD_or]
  simp [MM_PT_FLAG_LARGE]

theorem leafPte_reserved (h : LeafArgs pa flags L) (hL : L ≠ 1) :
    ReservedClear L (leafPte pa flags L) := by
  have hpage := leafPte_page h
  have ha := h.aligned
  unfold ReservedClear
  rcases h.level with rfl | rfl | rfl
  · exact absurd rfl hL
  all_goals simp only [pageBytes] at *
  all_goals omega

theorem leafPte_entryOk (h : LeafArgs pa flags L) : EntryOk L (leafPte pa flags L) := by
  intro _ hL
  rw [if_pos (leafPte_large h hL)]
  refine ⟨?_, leafPte_reserved h hL⟩
  have hlev := h.level
  omega

theorem leafPte_plain (h : LeafArgs pa flags L) : Plain L (leafPte pa flags L) := by
  intro _ _
  have hpage := leafPte_page h
  have ha := h.aligned
  have hlow := h.low
  rcases h.level with rfl | rfl | rfl
  all_goals simp only [pageBytes] at *
  all_goals omega

theorem leafPte_kind (h : LeafArgs pa flags L) :
    pageKind L (leafPte pa flags L) = .leaf (.leaf L (leafPte pa flags L)) := by
  by_cases hL : L = 1
  · subst hL
    exact pageKind_one (leafPte_present h)
  · have hlev := h.level
    exact pageKind_large (leafPte_present h) (leafPte_large h hL) (by omega)
      (leafPte_reserved h hL)

end Leaves

/-- The state after `pd[index] = pte`. -/
def VmmState.stored (s : VmmState) (t : Uptr) (i : Nat) (e : U64) : VmmState :=
  { s with mem := store64 s.mem (t.toNat + 8 * i) e }

section Stored

variable {own : Uptr → Option (Nat × Nat)} {s : VmmState} {t : Uptr} {L p i : Nat} {e : U64}

theorem pteAt_stored (h : VmmInv own s) (ht : own t = some (L, p)) (hi : i < 512) :
    pteAt (s.stored t i e).mem t i = e := by
  have hft := h.frame t L p ht
  refine (pteAt_store64 hft hft hi hi).trans ?_
  rw [if_pos ⟨rfl, rfl⟩]

theorem editAt_stored (h : VmmInv own s) (ht : own t = some (L, p)) (hi : i < 512) (e : U64) :
    EditAt 512 own (pteAt s.mem) (pteAt (s.stored t i e).mem) t i :=
  editAt_store h ht hi e

/-- Writing an entry keeps the stages that are not below it. -/
theorem stage_stored {key top M K : Nat} {root u : Uptr} (h : VmmInv own s)
    (ht : own t = some (K + 1, p)) (hi : i < 512) (hs : Stage own s top root key M u)
    (hM : K + 1 ≤ M) : Stage own (s.stored t i e) top root key M u := by
  obtain ⟨hroot, g, hreach⟩ := hs
  exact ⟨hroot, g, reach_edit (by decide) h.labelled (editAt_stored h ht hi e) ht hM hroot hreach⟩

/-- Writing an entry that leads nowhere keeps the invariant. -/
theorem grow_stored (h : VmmInv own s) (ht : own t = some (L, p)) (hi : i < 512)
    (he : EntryOk L e) (hnext : ∀ u f, pageKind L e ≠ .next u f) :
    Grow own own s (s.stored t i e) :=
  grow_store h ht hi he fun u f hk => absurd hk (hnext u f)

theorem grow_leaf {pa flags : U64} (h : VmmInv own s) (ht : own t = some (L, p)) (hi : i < 512)
    (ha : LeafArgs pa flags L) : Grow own own s (s.stored t i (leafPte pa flags L)) := by
  refine grow_stored h ht hi (leafPte_entryOk ha) fun u f hk => ?_
  rw [leafPte_kind ha] at hk
  cases hk

end Stored

/-! ## 4. What `vmm_map_impl` does for each size -/

/-- The flags of the tables on the way of a call with `flags`. -/
abbrev wayFlags (flags : U64) : U64 := vmmTableFlags (flags ||| MM_PT_FLAG_VALID)

theorem tableFlags_way (flags : U64) : TableFlags (wayFlags flags) := by
  unfold wayFlags vmmTableFlags
  split
  · exact Or.inr rfl
  · exact Or.inl rfl

theorem tableFlags_user {flags : U64} (h : flags.getLsbD 2 = true) :
    wayFlags flags = MM_PT_USER_TABLE_FLAGS := by
  have hbit : (flags ||| MM_PT_FLAG_VALID) &&& MM_PT_FLAG_USER ≠ 0 := by
    rw [← bne_iff_ne]
    refine (and_twoPow_ne_zero (flags ||| MM_PT_FLAG_VALID) (k := 2) (by omega)).trans ?_
    rw [BitVec.getLsbD_or, h, Bool.true_or]
  unfold wayFlags vmmTableFlags
  rw [if_pos hbit]

theorem isPtrAligned_iff (x y : U64) : isPtrAligned x y = true ↔ x.toNat % y.toNat = 0 := by
  unfold isPtrAligned
  rw [beq_iff_eq]
  constructor
  · intro h
    have h' := congrArg BitVec.toNat h
    rw [BitVec.toNat_umod] at h'
    exact h'
  · intro h
    apply BitVec.eq_of_toNat_eq
    rw [BitVec.toNat_umod, h]
    rfl

/-- A way down to table `t` and the leaf of level `L` written there. -/
def Put (pmap : PageMap) (va pa flags : U64) (own : Uptr → Option (Nat × Nat)) (s : VmmState)
    (own' : Uptr → Option (Nat × Nat)) (s' : VmmState) (L : Nat) : Prop :=
  ∃ s₁ t, Way pmap va (wayFlags flags) own s own' s₁ L t ∧
    s' = s₁.stored t (slot (pageNumber pmap.level.num va) (L - 1)) (leafPte pa flags L)

section Program

variable {pmap : PageMap} {va pa flags : U64} {own : Uptr → Option (Nat × Nat)} {s : VmmState}
  (pages1gb : Bool)

/-- The start of `vmm_map_impl`, its assertions met. -/
theorem wp_vmmMapImpl {size : Usize} (ha : MapArgs va pa flags size) (h : VmmInv own s)
    (hr : MapRoot own pmap) (hfree : 2 ≤ s.free.length) {Q : Unit → VmmState → Prop}
    (hQ : ∀ pml3 s₁ own₁, Way pmap va (wayFlags flags) own s own₁ s₁ 3 pml3 →
      wp (do
        let _ ← (if size = MM_PAGE_1GB then
            if pages1gb then
              pdStore pml3 (pml3Index va) (pa ||| (flags ||| MM_PT_FLAG_VALID) ||| MM_PT_FLAG_LARGE)
            else forUp (MM_PAGE_1GB / MM_PAGE_2MB).toNat fun k =>
              vmmMapImpl pages1gb pmap (va + BitVec.ofNat 64 k * MM_PAGE_2MB)
                (pa + BitVec.ofNat 64 k * MM_PAGE_2MB) (flags ||| MM_PT_FLAG_VALID) MM_PAGE_2MB
          else pure ())
        vmmMapFrom pml3 va pa (flags ||| MM_PT_FLAG_VALID) (wayFlags flags) size) s₁ Q) :
    wp (vmmMapImpl pages1gb pmap va pa flags size) s Q := by
  have hto := wp_toPml3 va h hr (tableFlags_way flags) hfree
  rw [wp_bind] at hto
  rw [vmmMapImpl, wp_bind, wp_assert]
  refine ⟨ha.sizes, ?_⟩
  rw [wp_bind, wp_assertRelease]
  refine ⟨⟨(isPtrAligned_iff _ _).mpr ha.va_aligned, (isPtrAligned_iff _ _).mpr ha.pa_aligned⟩, ?_⟩
  rw [wp_bind]
  refine wp_mono hto fun pml4 s₀ h3 => ?_
  rw [wp_bind]
  refine wp_mono h3 fun pml3 s₁ hw => ?_
  obtain ⟨own₁, hw⟩ := hw
  exact hQ pml3 s₁ own₁ hw

section Legs

variable {own₁ : Uptr → Option (Nat × Nat)} {s₁ : VmmState} {pml3 : Uptr}

/-- The second leg for 2 MB: one more descent, and the leaf. -/
theorem wp_vmmMapFrom_2MB (h : VmmInv own s) (hr : MapRoot own pmap) (hfree : 3 ≤ s.free.length)
    (hw : Way pmap va (wayFlags flags) own s own₁ s₁ 3 pml3) :
    wp (vmmMapFrom pml3 va pa (flags ||| MM_PT_FLAG_VALID) (wayFlags flags) MM_PAGE_2MB) s₁
      fun _ s' => ∃ own', Put pmap va pa flags own s own' s' 2 := by
  have hnum := mapRoot_num hr
  have hframes := leads_frames hw
  unfold vmmMapFrom
  rw [wp_bind]
  refine wp_mono (wp_descend h hr (tableFlags_way flags) hw (pml3Index_eq va hnum)
    ⟨rfl, by decide⟩ (List.ne_nil_of_length_pos (by omega))) fun pml2 s₂ hw₂ => ?_
  obtain ⟨own₂, hw₂⟩ := hw₂
  rw [if_pos (by decide), wp_pdStore, pml2Index_eq va hnum, BitVec.or_assoc]
  exact ⟨own₂, s₂, pml2, hw₂, rfl⟩

/-- The second leg for 4 KB: two more descents, and the leaf. -/
theorem wp_vmmMapFrom_4KB (h : VmmInv own s) (hr : MapRoot own pmap) (hfree : 4 ≤ s.free.length)
    (hw : Way pmap va (wayFlags flags) own s own₁ s₁ 3 pml3) :
    wp (vmmMapFrom pml3 va pa (flags ||| MM_PT_FLAG_VALID) (wayFlags flags) MM_PAGE_4KB) s₁
      fun _ s' => ∃ own', Put pmap va pa flags own s own' s' 1 := by
  have hnum := mapRoot_num hr
  have hframes := leads_frames hw
  unfold vmmMapFrom
  rw [wp_bind]
  refine wp_mono (wp_descend h hr (tableFlags_way flags) hw (pml3Index_eq va hnum)
    ⟨rfl, by decide⟩ (List.ne_nil_of_length_pos (by omega))) fun pml2 s₂ hw₂ => ?_
  obtain ⟨own₂, hw₂⟩ := hw₂
  have hframes₂ := leads_frames hw₂
  rw [if_neg (by decide), wp_bind]
  refine wp_mono (wp_descend h hr (tableFlags_way flags) hw₂ (pml2Index_eq va hnum)
    ⟨rfl, by decide⟩ (List.ne_nil_of_length_pos (by omega))) fun pml1 s₃ hw₃ => ?_
  obtain ⟨own₃, hw₃⟩ := hw₃
  rw [wp_pdStore, pml1Index_eq va hnum]
  exact ⟨own₃, s₃, pml1, hw₃, rfl⟩

end Legs

/-- **A 4 KB page**: the way down to level 1, and the leaf. -/
theorem wp_vmmMap_4KB (ha : MapArgs va pa flags MM_PAGE_4KB) (h : VmmInv own s)
    (hr : MapRoot own pmap) (hfree : 4 ≤ s.free.length) :
    wp (vmmMapImpl pages1gb pmap va pa flags MM_PAGE_4KB) s
      fun _ s' => ∃ own', Put pmap va pa flags own s own' s' 1 := by
  refine wp_vmmMapImpl pages1gb ha h hr (by omega) fun pml3 s₁ own₁ hw => ?_
  rw [if_neg (by decide), wp_bind, wp_pure]
  exact wp_vmmMapFrom_4KB h hr hfree hw

/-- **A 2 MB page**: the way down to level 2, and the leaf. -/
theorem wp_vmmMap_2MB (ha : MapArgs va pa flags MM_PAGE_2MB) (h : VmmInv own s)
    (hr : MapRoot own pmap) (hfree : 3 ≤ s.free.length) :
    wp (vmmMapImpl pages1gb pmap va pa flags MM_PAGE_2MB) s
      fun _ s' => ∃ own', Put pmap va pa flags own s own' s' 2 := by
  refine wp_vmmMapImpl pages1gb ha h hr (by omega) fun pml3 s₁ own₁ hw => ?_
  rw [if_neg (by decide), wp_bind, wp_pure]
  exact wp_vmmMapFrom_2MB h hr hfree hw

/-- The end of the call for 1 GB: from the table `pml3` one more descent, and the leaf of the
    first 2 MB. -/
def Closed (pmap : PageMap) (va pa flags : U64) (pml3 : Uptr) (own : Uptr → Option (Nat × Nat))
    (s : VmmState) (own' : Uptr → Option (Nat × Nat)) (s' : VmmState) : Prop :=
  ∃ s₁ c, Descended own own' s s₁ pml3 (slot (pageNumber pmap.level.num va) 2) 2
      (pageNumber pmap.level.num va / 512 ^ 3) (wayFlags flags) c ∧
    s' = s₁.stored c (slot (pageNumber pmap.level.num va) 1) (leafPte pa flags 2)

theorem wp_vmmMapFrom_1GB {pml3 : Uptr} (h : VmmInv own s) (hr : MapRoot own pmap)
    (ht : own pml3 = some (3, pageNumber pmap.level.num va / 512 ^ 3))
    (hfree : 1 ≤ s.free.length) :
    wp (vmmMapFrom pml3 va pa (flags ||| MM_PT_FLAG_VALID) (wayFlags flags) MM_PAGE_1GB) s
      fun _ s' => ∃ own', Closed pmap va pa flags pml3 own s own' s' := by
  have hnum := mapRoot_num hr
  unfold vmmMapFrom
  rw [wp_bind, pml3Index_eq va hnum]
  refine wp_mono (wp_pdGetOrCreate h ht (slot_lt _ 2) ⟨rfl, by decide⟩
    (tableFlags_way flags) (List.ne_nil_of_length_pos (by omega))) fun pml2 s₁ hd => ?_
  obtain ⟨own', hd⟩ := hd
  rw [if_pos (by decide), wp_pdStore, pml2Index_eq va hnum, BitVec.or_assoc]
  exact ⟨own', s₁, pml2, hd, rfl⟩

theorem leafArgs_of_mapArgs {size : Usize} {L : Nat} (ha : MapArgs va pa flags size)
    (hL : L = 1 ∨ L = 2 ∨ L = 3) (hs : size.toNat = pageBytes L) : LeafArgs pa flags L :=
  ⟨hL, by rw [← hs]; exact ha.pa_aligned, ha.pa_low, ha.flags⟩

/-- **A 1 GB page on a machine that has them**: the way down to level 3, the leaf, and the end,
    which puts the leaf into pieces. -/
theorem wp_vmmMap_leaf_1GB (ha : MapArgs va pa flags MM_PAGE_1GB) (h : VmmInv own s)
    (hr : MapRoot own pmap) (hfree : 3 ≤ s.free.length) :
    wp (vmmMapImpl true pmap va pa flags MM_PAGE_1GB) s
      fun _ s' => ∃ own₁ s₁ pml3, Way pmap va (wayFlags flags) own s own₁ s₁ 3 pml3 ∧
        ∃ own', Closed pmap va pa flags pml3 own₁
          (s₁.stored pml3 (slot (pageNumber pmap.level.num va) 2) (leafPte pa flags 3)) own' s' := by
  have hnum := mapRoot_num hr
  refine wp_vmmMapImpl true ha h hr (by omega) fun pml3 s₁ own₁ hw => ?_
  have hframes := leads_frames hw
  obtain ⟨hgrow, hstage⟩ := leads_stage h (mapRoot_label hr (pageNumber_lt _ va)) hw (by decide)
  have hleaf := leafArgs_of_mapArgs ha (Or.inr (Or.inr rfl)) (by decide)
  have hgrow' := grow_leaf hgrow.inv (stage_label hgrow.inv hstage)
    (slot_lt (pageNumber pmap.level.num va) 2) hleaf
  rw [if_pos rfl, if_pos rfl, wp_bind, wp_pdStore, pml3Index_eq va hnum, BitVec.or_assoc]
  refine wp_mono (wp_vmmMapFrom_1GB hgrow'.inv ⟨hr.level, hgrow.keep _ _ _ hr.root⟩
    (stage_label hgrow.inv hstage) ?_) fun _ s' hc => ⟨own₁, s₁, pml3, hw, hc⟩
  show 1 ≤ s₁.free.length
  omega

/-- `n` pages of 2 MB in a row, from the ones at `va` and `pa` on. -/
inductive Pieces (pmap : PageMap) (va pa flags : U64) (own : Uptr → Option (Nat × Nat))
    (s : VmmState) : Nat → (Uptr → Option (Nat × Nat)) → VmmState → Prop where
  | zero : Pieces pmap va pa flags own s 0 own s
  | succ {n : Nat} {own₁ own₂ : Uptr → Option (Nat × Nat)} {s₁ s₂ : VmmState}
      (h : Pieces pmap va pa flags own s n own₁ s₁)
      (hp : Put pmap (va + BitVec.ofNat 64 n * MM_PAGE_2MB) (pa + BitVec.ofNat 64 n * MM_PAGE_2MB)
        flags own₁ s₁ own₂ s₂ 2) :
      Pieces pmap va pa flags own s (n + 1) own₂ s₂

theorem or_valid (flags : U64) :
    flags ||| MM_PT_FLAG_VALID ||| MM_PT_FLAG_VALID = flags ||| MM_PT_FLAG_VALID := by
  rw [BitVec.or_assoc, BitVec.or_self]

/-- The valid bit added once more changes nothing. -/
theorem put_valid {own' : Uptr → Option (Nat × Nat)} {s' : VmmState} {L : Nat} :
    Put pmap va pa (flags ||| MM_PT_FLAG_VALID) own s own' s' L ↔
      Put pmap va pa flags own s own' s' L := by
  unfold Put leafPte leafFlags wayFlags
  rw [or_valid]

theorem leads_put {own' : Uptr → Option (Nat × Nat)} {s' : VmmState} {L : Nat} (h : VmmInv own s)
    (hr : MapRoot own pmap) (ha : LeafArgs pa flags L) (hp : Put pmap va pa flags own s own' s' L) :
    Grow own own' s s' := by
  obtain ⟨s₁, t, hw, rfl⟩ := hp
  have hlev := ha.level
  obtain ⟨K, rfl⟩ : ∃ K, L = K + 1 := ⟨L - 1, by omega⟩
  obtain ⟨hgrow, hstage⟩ := leads_stage h (mapRoot_label hr (pageNumber_lt _ va)) hw
    (Nat.succ_ne_zero K)
  exact grow_trans hgrow (grow_leaf hgrow.inv (stage_label hgrow.inv hstage)
    (slot_lt (pageNumber pmap.level.num va) K) ha)

theorem stage_put {own' : Uptr → Option (Nat × Nat)} {s' : VmmState} {key top L M : Nat}
    {root u : Uptr} (h : VmmInv own s) (hr : MapRoot own pmap) (hL : L ≠ 0)
    (hs : Stage own s top root key M u) (hp : Put pmap va pa flags own s own' s' L)
    (hM : L ≤ M) : Stage own' s' top root key M u := by
  obtain ⟨s₁, t, hw, rfl⟩ := hp
  obtain ⟨K, rfl⟩ := Nat.exists_eq_succ_of_ne_zero hL
  have hroot := mapRoot_label hr (pageNumber_lt pmap.level.num va)
  obtain ⟨hgrow, hstage⟩ := leads_stage h hroot hw hL
  exact stage_stored hgrow.inv (stage_label hgrow.inv hstage) (slot_lt _ K)
    (stage_leads h hroot hs hw hL) hM

/-- A leaf takes no frame beside those of its way. -/
theorem put_frames {own' : Uptr → Option (Nat × Nat)} {s' : VmmState} {L : Nat}
    (hp : Put pmap va pa flags own s own' s' L) :
    s.free.length + L ≤ s'.free.length + pmap.level.num := by
  obtain ⟨s₁, t, hw, rfl⟩ := hp
  have hframes := leads_frames hw
  exact hframes

theorem toNat_piece {x : U64} {k : Nat} (hk : k < 512) (hx : x.toNat % 2 ^ 30 = 0) :
    (x + BitVec.ofNat 64 k * MM_PAGE_2MB).toNat = x.toNat + 2 ^ 21 * k := by
  have hlt := x.isLt
  have hmul : (BitVec.ofNat 64 k * MM_PAGE_2MB).toNat = 2 ^ 21 * k := by
    rw [BitVec.toNat_mul, ofNat_toNat_lt (by omega), show MM_PAGE_2MB.toNat = 2 ^ 21 from rfl]
    omega
  rw [BitVec.toNat_add, hmul]
  omega

/-- The arguments of the pieces of a 1 GB page. -/
theorem mapArgs_piece (ha : MapArgs va pa flags MM_PAGE_1GB) {k : Nat} (hk : k < 512) :
    MapArgs (va + BitVec.ofNat 64 k * MM_PAGE_2MB) (pa + BitVec.ofNat 64 k * MM_PAGE_2MB) flags
      MM_PAGE_2MB := by
  have hva : va.toNat % 2 ^ 30 = 0 := ha.va_aligned
  have hpa : pa.toNat % 2 ^ 30 = 0 := ha.pa_aligned
  have hlow := ha.pa_low
  have hsize : MM_PAGE_2MB.toNat = 2 ^ 21 := rfl
  refine ⟨Or.inr (Or.inl rfl), ?_, ?_, ?_, ha.flags⟩
  · rw [toNat_piece hk hva, hsize]
    omega
  · rw [toNat_piece hk hpa, hsize]
    omega
  · rw [toNat_piece hk hpa]
    omega

theorem leafArgs_piece (ha : MapArgs va pa flags MM_PAGE_1GB) {k : Nat} (hk : k < 512) :
    LeafArgs (pa + BitVec.ofNat 64 k * MM_PAGE_2MB) flags 2 :=
  leafArgs_of_mapArgs (mapArgs_piece ha hk) (Or.inr (Or.inl rfl)) (by decide)

theorem pieces_grow {own' : Uptr → Option (Nat × Nat)} {s' : VmmState} {n : Nat}
    (h : VmmInv own s) (hr : MapRoot own pmap) (ha : MapArgs va pa flags MM_PAGE_1GB)
    (hn : n ≤ 512) (hp : Pieces pmap va pa flags own s n own' s') : Grow own own' s s' := by
  induction hp with
  | zero => exact grow_refl h
  | @succ n _ _ _ _ _ hput ih =>
      have hgrow := ih (by omega)
      exact grow_trans hgrow (leads_put hgrow.inv ⟨hr.level, hgrow.keep _ _ _ hr.root⟩
        (leafArgs_piece ha (by omega)) hput)

theorem stage_pieces {own' : Uptr → Option (Nat × Nat)} {s' : VmmState} {key top n M : Nat}
    {root u : Uptr} (h : VmmInv own s) (hr : MapRoot own pmap)
    (ha : MapArgs va pa flags MM_PAGE_1GB) (hn : n ≤ 512) (hs : Stage own s top root key M u)
    (hp : Pieces pmap va pa flags own s n own' s') (hM : 2 ≤ M) :
    Stage own' s' top root key M u := by
  induction hp with
  | zero => exact hs
  | @succ n _ _ _ _ hp hput ih =>
      have hgrow := pieces_grow h hr ha (by omega) hp
      exact stage_put hgrow.inv ⟨hr.level, hgrow.keep _ _ _ hr.root⟩ (by decide) (ih (by omega))
        hput hM

/-- The loop over the pieces of a 1 GB page. -/
theorem wp_pieces (ha : MapArgs va pa flags MM_PAGE_1GB) (h : VmmInv own s)
    (hr : MapRoot own pmap) (hfree : 1536 ≤ s.free.length) :
    wp (forUp 512 fun k => vmmMapImpl false pmap (va + BitVec.ofNat 64 k * MM_PAGE_2MB)
        (pa + BitVec.ofNat 64 k * MM_PAGE_2MB) (flags ||| MM_PT_FLAG_VALID) MM_PAGE_2MB) s
      fun _ s' => ∃ own', Pieces pmap va pa flags own s 512 own' s' ∧
        s.free.length ≤ s'.free.length + 1536 := by
  let I : Nat → VmmState → Prop := fun k u => ∃ own', Pieces pmap va pa flags own s k own' u ∧
    s.free.length ≤ u.free.length + 3 * k
  have hstep : ∀ k u, k < 512 → I k u →
      wp (vmmMapImpl false pmap (va + BitVec.ofNat 64 k * MM_PAGE_2MB)
        (pa + BitVec.ofNat 64 k * MM_PAGE_2MB) (flags ||| MM_PT_FLAG_VALID) MM_PAGE_2MB) u
        fun _ u' => I (k + 1) u' := by
    intro k u hk hu
    obtain ⟨own₁, hp, hf⟩ := hu
    have hgrow := pieces_grow h hr ha (by omega) hp
    have hargs := mapArgs_piece ha hk
    have hargs' : MapArgs (va + BitVec.ofNat 64 k * MM_PAGE_2MB)
        (pa + BitVec.ofNat 64 k * MM_PAGE_2MB) (flags ||| MM_PT_FLAG_VALID) MM_PAGE_2MB := by
      refine { hargs with flags := ?_ }
      rw [BitVec.and_or_distrib_right, ha.flags]
      decide
    refine wp_mono (wp_vmmMap_2MB false hargs' hgrow.inv ⟨hr.level, hgrow.keep _ _ _ hr.root⟩
      (by omega)) fun _ u' hput => ?_
    obtain ⟨own₂, hput⟩ := hput
    have hput' := put_valid.mp hput
    have hframes := put_frames hput'
    have hnum := mapRoot_num hr
    exact ⟨own₂, .succ hp hput', by omega⟩
  refine wp_mono (wp_forUp I ⟨own, .zero, Nat.le_refl _⟩ hstep) fun _ u hu => ?_
  obtain ⟨own', hp, hf⟩ := hu
  exact ⟨own', hp, by omega⟩

/-- **A 1 GB page on a machine without them**: the way down to level 3, 512 pages of 2 MB, and
    the end, which maps the first of them once more. -/
theorem wp_vmmMap_pieces_1GB (ha : MapArgs va pa flags MM_PAGE_1GB) (h : VmmInv own s)
    (hr : MapRoot own pmap) (hfree : 1539 ≤ s.free.length) :
    wp (vmmMapImpl false pmap va pa flags MM_PAGE_1GB) s
      fun _ s' => ∃ own₁ s₁ pml3 own₂ s₂, Way pmap va (wayFlags flags) own s own₁ s₁ 3 pml3 ∧
        Pieces pmap va pa flags own₁ s₁ 512 own₂ s₂ ∧
        ∃ own', Closed pmap va pa flags pml3 own₂ s₂ own' s' := by
  have hnum := mapRoot_num hr
  refine wp_vmmMapImpl false ha h hr (by omega) fun pml3 s₁ own₁ hw => ?_
  have hframes := leads_frames hw
  obtain ⟨hgrow, hstage⟩ := leads_stage h (mapRoot_label hr (pageNumber_lt _ va)) hw (by decide)
  have hr₁ : MapRoot own₁ pmap := ⟨hr.level, hgrow.keep _ _ _ hr.root⟩
  rw [if_pos rfl, if_neg (by decide), wp_bind,
    show (MM_PAGE_1GB / MM_PAGE_2MB).toNat = 512 by decide]
  refine wp_mono (wp_pieces ha hgrow.inv hr₁ (by omega)) fun _ s₂ hp => ?_
  obtain ⟨own₂, hp, hf⟩ := hp
  have hgrow₂ := pieces_grow hgrow.inv hr₁ ha (Nat.le_refl _) hp
  have hlabel := hgrow₂.keep _ _ _ (stage_label hgrow.inv hstage)
  exact wp_mono (wp_vmmMapFrom_1GB hgrow₂.inv ⟨hr.level, hgrow₂.keep _ _ _ hr₁.root⟩ hlabel
    (by omega)) fun _ s' hc => ⟨own₁, s₁, pml3, own₂, s₂, hw, hp, hc⟩

end Program

end Slightx
