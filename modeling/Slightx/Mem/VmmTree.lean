/-
  File:      Slightx/Mem/VmmTree.lean
  Subject:   The tables of page maps as labelled trees in one memory.

  `VmmInv` labels every table frame with its level and the page numbers that may pass
  (`Labelled`), keeps the free frames apart from the tables, and says which entries may stand at
  which level. Any number of page maps may share the memory and tables of it.

  `pd_get_or_create` is described once (`wp_pdGetOrCreate`): it links in an empty table, shares
  the one that is there, or links in the pieces of a large page, and in each case edits one entry
  and grows the labelling by at most one frame. Writing a leaf is the other step
  (`wp_pdStore`, `grow_store`).
-/
import Slightx.Mem.Walk
import Slightx.Lib.Bits

namespace Slightx

open Lib

/-! ## 1. Table frames in memory -/

/-- A frame a table can be in: page-aligned, below 2^48. -/
structure FrameOk (pa : Uptr) : Prop where
  aligned : pa.toNat % 4096 = 0
  low : pa.toNat < 2 ^ 48

/-- The addresses of a frame. -/
def InFrame (t : Uptr) (x : Nat) : Prop := t.toNat ≤ x ∧ x < t.toNat + 4096

/-- The address of a frame is that of its page. -/
theorem frame_round {pa : Uptr} (h : FrameOk pa) :
    pa / MM_PHYS_PAGE_SIZE * MM_PHYS_PAGE_SIZE = pa := by
  have haligned := h.aligned
  have hlt := pa.isLt
  apply BitVec.eq_of_toNat_eq
  rw [BitVec.toNat_mul, BitVec.toNat_udiv, show MM_PHYS_PAGE_SIZE.toNat = 4096 from rfl]
  omega

section Frames

variable {t u c : Uptr} {i j n : Nat} {m : Mem} {e : U64}

theorem frames_apart (ht : FrameOk t) (hu : FrameOk u) (hne : u ≠ t) :
    u.toNat + 4096 ≤ t.toNat ∨ t.toNat + 4096 ≤ u.toNat := by
  have h1 := ht.aligned
  have h2 := hu.aligned
  have h3 : u.toNat ≠ t.toNat := fun h => hne (BitVec.eq_of_toNat_eq h)
  omega

/-- An entry written is the entry read; all other entries keep their values. -/
theorem pteAt_store64 (ht : FrameOk t) (hu : FrameOk u) (hi : i < 512) (hj : j < 512) :
    pteAt (store64 m (t.toNat + 8 * i) e) u j = if u = t ∧ j = i then e else pteAt m u j := by
  unfold pteAt
  by_cases hsame : u = t ∧ j = i
  · obtain ⟨rfl, rfl⟩ := hsame
    rw [if_pos ⟨rfl, rfl⟩, load64_store64_same]
  · rw [if_neg hsame, load64_store64_ne]
    by_cases hut : u = t
    · subst hut
      have hji : j ≠ i := fun h => hsame ⟨rfl, h⟩
      omega
    · have hapart := frames_apart ht hu hut
      omega

/-- A zeroed frame is an empty table. -/
theorem pteAt_fill (hc : FrameOk c) (hu : FrameOk u) (hj : j < 512) :
    pteAt (fill m c.toNat 4096 0) u j = if u = c then 0 else pteAt m u j := by
  unfold pteAt
  by_cases huc : u = c
  · subst huc
    rw [if_pos rfl, load64_fill (by omega) (by omega)]
  · have hapart := frames_apart hc hu huc
    rw [if_neg huc, load64_fill_out (by omega)]

/-- The entries after a loop that writes the first `n` entries of table `c`. -/
theorem pteAt_runUp (hc : FrameOk c) (hu : FrameOk u) (hn : n ≤ 512) (hj : j < 512)
    (ents : Nat → U64) :
    pteAt (runUp n (fun k m => store64 m (c.toNat + 8 * k) (ents k)) m) u j =
      if u = c ∧ j < n then ents j else pteAt m u j := by
  induction n with
  | zero => rw [if_neg fun h => Nat.not_lt_zero j h.2]; rfl
  | succ n ih =>
      rw [runUp, pteAt_store64 hc hu (by omega) hj, ih (by omega)]
      by_cases huc : u = c
      · subst huc
        by_cases hjn : j = n
        · subst hjn
          rw [if_pos ⟨rfl, rfl⟩, if_pos ⟨rfl, Nat.lt_succ_self j⟩]
        · rw [if_neg fun h => hjn h.2]
          by_cases hlt : j < n
          · rw [if_pos ⟨rfl, hlt⟩, if_pos ⟨rfl, Nat.lt_succ_of_lt hlt⟩]
          · rw [if_neg fun h => hlt h.2, if_neg fun h => by have := h.2; omega]
      · rw [if_neg fun h => huc h.1, if_neg fun h => huc h.1, if_neg fun h => huc h.1]

theorem sameOff_entry (t : Uptr) (hi : i < 512) (m : Mem) (e : U64) :
    SameOff (InFrame t) m (store64 m (t.toNat + 8 * i) e) :=
  sameOff_store64 fun x hx hx' => ⟨by omega, by omega⟩

theorem sameOff_entries (c : Uptr) (hn : n ≤ 512) (m : Mem) (ents : Nat → U64) :
    SameOff (InFrame c) m (runUp n (fun k m => store64 m (c.toNat + 8 * k) (ents k)) m) := by
  induction n with
  | zero => exact sameOff_refl _ m
  | succ n ih => exact sameOff_trans (ih (by omega)) (sameOff_entry c (by omega) _ _)

end Frames

/-! ## 2. Entries -/

/-- A table entry of level `L` points below 2^48, and large leaves stand at levels 2 and 3 with
    their reserved bits clear. -/
def EntryOk (L : Nat) (e : U64) : Prop :=
  ptePresent e = true → L ≠ 1 →
    if pteLarge e then L ≤ 3 ∧ ReservedClear L e else e.toNat / 2 ^ 48 % 16 = 0

/-- The entry leads to table `c`. -/
structure IsTable (e : U64) (c : Uptr) : Prop where
  present : ptePresent e = true
  small : pteLarge e = false
  low : e.toNat / 2 ^ 48 % 16 = 0
  table : hwTable e = c

/-- The flags `vmm_map_impl` gives tables. -/
def TableFlags (tf : U64) : Prop := tf = MM_PT_KERN_TABLE_FLAGS ∨ tf = MM_PT_USER_TABLE_FLAGS

section Entries

variable {e c tf : U64} {L : Nat}

theorem isTable_pteP2v (h : IsTable e c) : pteP2v e = c := by
  rw [← h.table]
  apply BitVec.eq_of_toNat_eq
  have hlow := h.low
  unfold pteP2v hwTable
  rw [toNat_and_field 12 36 rfl, toNat_and_field 12 40 rfl]
  omega

theorem isTable_kind (h : IsTable e c) (hL : L ≠ 1) :
    pageKind L e = .next c (Hit.under e) := by
  rw [pageKind_table h.present h.small hL, h.table]

/-- Only table entries lead on. -/
theorem isTable_of_next {f : Hit → Hit} (hok : EntryOk L e) (h : pageKind L e = .next c f) :
    IsTable e c ∧ f = Hit.under e ∧ L ≠ 1 := by
  obtain ⟨hp, hl, hL, hc, hf⟩ := pageKind_next h
  have hlow := hok hp hL
  rw [if_neg (by simp [hl])] at hlow
  exact ⟨⟨hp, hl, hlow, hc.symm⟩, hf, hL⟩

/-- An aligned address below 2^48 lies in the bits of the address mask. -/
theorem and_addr_mask {pa : Uptr} (h : FrameOk pa) : pa &&& 0x000FFFFFFFFFF000 = pa := by
  apply BitVec.eq_of_toNat_eq
  have h1 := h.aligned
  have h2 := h.low
  rw [toNat_and_field 12 40 rfl]
  omega

/-- Flags without address bits do not change the address of an entry. -/
theorem hwTable_or {pa fl : U64} (h : FrameOk pa) (hf : fl &&& 0x000FFFFFFFFFF000 = 0#64) :
    hwTable (pa ||| fl) = pa :=
  or_and_left (and_addr_mask h) hf

theorem toNat_hwTable (e : U64) : (hwTable e).toNat = e.toNat % 2 ^ 52 / 4096 * 4096 := by
  unfold hwTable
  rw [toNat_and_field 12 40 rfl]
  omega

theorem frame_bit {pa : Uptr} (h : FrameOk pa) {k : Nat} (hk : k < 12 ∨ 48 ≤ k) :
    pa.getLsbD k = false := by
  rcases hk with hk | hk
  · exact getLsbD_of_aligned (n := 12) h.aligned hk
  · exact getLsbD_of_lt h.low hk

/-- The flag bits of an entry are those of its flags. -/
theorem or_bit {pa fl : U64} (h : FrameOk pa) {k : Nat} (hk : k < 12 ∨ 48 ≤ k) :
    (pa ||| fl).getLsbD k = fl.getLsbD k := by
  rw [BitVec.getLsbD_or, frame_bit h hk, Bool.false_or]

/-- The entry `pd_get_or_create` links a table with. -/
theorem isTable_link (hc : FrameOk c) (htf : TableFlags tf) : IsTable (c ||| tf) c := by
  have htable : hwTable (c ||| tf) = c := by
    refine hwTable_or hc ?_
    rcases htf with rfl | rfl <;> decide
  refine ⟨?_, ?_, ?_, htable⟩
  · rw [ptePresent_eq, or_bit hc (Or.inl (by decide))]
    rcases htf with rfl | rfl <;> rfl
  · rw [pteLarge_eq, or_bit hc (Or.inl (by decide))]
    rcases htf with rfl | rfl <;> rfl
  · have h := congrArg BitVec.toNat htable
    have hlow := hc.low
    rw [toNat_hwTable] at h
    omega

/-- A table entry with the user bit added. -/
theorem isTable_user (h : IsTable e c) : IsTable (e ||| MM_PT_FLAG_USER) c := by
  have htable : hwTable (e ||| MM_PT_FLAG_USER) = c := by
    rw [← h.table]
    unfold hwTable
    rw [BitVec.and_or_distrib_right, show MM_PT_FLAG_USER &&& 0x000FFFFFFFFFF000 = 0#64 by decide,
      BitVec.or_zero]
  refine ⟨?_, ?_, ?_, htable⟩
  · rw [ptePresent_eq, BitVec.getLsbD_or, ← ptePresent_eq, h.present, Bool.true_or]
  · rw [pteLarge_eq, BitVec.getLsbD_or, ← pteLarge_eq, h.small]
    rfl
  · have h1 := congrArg BitVec.toNat htable
    have h2 := congrArg BitVec.toNat h.table
    have h3 := h.low
    rw [toNat_hwTable] at h1 h2
    omega

/-- Flags without address bits leave the page number of an entry alone. -/
theorem page_or {a fl : U64} (hf : fl &&& 0x000FFFFFFFFFF000 = 0#64) :
    (a ||| fl).toNat % 2 ^ 52 / 4096 = a.toNat % 2 ^ 52 / 4096 := by
  have h : hwTable (a ||| fl) = hwTable a := by
    unfold hwTable
    rw [BitVec.and_or_distrib_right, hf, BitVec.or_zero]
  have h' := congrArg BitVec.toNat h
  rw [toNat_hwTable, toNat_hwTable] at h'
  omega

theorem entryOk_isTable (h : IsTable e c) : EntryOk L e := by
  intro _ _
  rw [if_neg (by simp [h.small])]
  exact h.low

theorem entryOk_zero : EntryOk L 0 := fun hp => absurd hp (by decide)

end Entries

/-! ## 3. The invariant -/

/-- The tables `own` labels form radix trees, their entries may stand where they stand, and the
    free frames are no tables. -/
structure VmmInv (own : Uptr → Option (Nat × Nat)) (s : VmmState) : Prop where
  labelled : Labelled 512 pageKind (pteAt s.mem) own
  frame : ∀ t L p, own t = some (L, p) → FrameOk t
  entries : ∀ t L p i, own t = some (L, p) → i < 512 → EntryOk L (pteAt s.mem t i)
  free : ∀ f ∈ s.free, FrameOk f ∧ own f = none
  nodup : s.free.Nodup

/-- The state `s'` has all tables of `s`, and more of the free frames are tables; nothing but
    tables changed. -/
structure Grow (own own' : Uptr → Option (Nat × Nat)) (s s' : VmmState) : Prop where
  inv : VmmInv own' s'
  keep : ∀ t L p, own t = some (L, p) → own' t = some (L, p)
  suffix : s'.free <:+ s.free
  fresh : ∀ t, own' t ≠ none → own t ≠ none ∨ t ∈ s.free
  touch : SameOff (fun x => ∃ t, own' t ≠ none ∧ InFrame t x) s.mem s'.mem

section Grow

variable {own own' own'' : Uptr → Option (Nat × Nat)} {s s' s'' : VmmState}

theorem grow_refl (h : VmmInv own s) : Grow own own s s :=
  ⟨h, fun _ _ _ ht => ht, List.suffix_refl _, fun _ ht => Or.inl ht, sameOff_refl _ _⟩

theorem grow_trans (h : Grow own own' s s') (h' : Grow own' own'' s' s'') :
    Grow own own'' s s'' := by
  refine ⟨h'.inv, fun t L p ht => h'.keep t L p (h.keep t L p ht), h'.suffix.trans h.suffix,
    fun t ht => ?_, sameOff_trans (sameOff_mono h.touch fun x hx => ?_) h'.touch⟩
  · rcases h'.fresh t ht with ht | ht
    · exact h.fresh t ht
    · exact Or.inr (h.suffix.subset ht)
  · obtain ⟨t, ht, hx⟩ := hx
    obtain ⟨⟨L, p⟩, hLp⟩ := Option.ne_none_iff_exists'.mp ht
    exact ⟨t, by rw [h'.keep t L p hLp]; exact Option.some_ne_none _, hx⟩

end Grow

section Steps

variable {own : Uptr → Option (Nat × Nat)} {s : VmmState} {t c : Uptr} {K L p i : Nat}
  {e' tf : U64}

/-- One entry of a table is rewritten, without linking in another table. -/
theorem editAt_store (h : VmmInv own s) (ht : own t = some (L, p)) (hi : i < 512) (e' : U64) :
    EditAt 512 own (pteAt s.mem) (pteAt (store64 s.mem (t.toNat + 8 * i) e')) t i := by
  intro u j hu hj hne
  obtain ⟨⟨M, q⟩, hu⟩ := Option.ne_none_iff_exists'.mp hu
  rw [pteAt_store64 (h.frame t L p ht) (h.frame u M q hu) hi hj, if_neg hne]

/-- An entry may lead to a table that has the label of its place. -/
theorem grow_set (h : VmmInv own s) (ht : own t = some (L, p)) (hi : i < 512)
    (he : EntryOk L e') (hnext : ∀ u f, pageKind L e' = .next u f →
      ∃ M, L = M + 1 ∧ own u = some (M, p * 512 + i)) :
    Grow own own s { s with mem := store64 s.mem (t.toNat + 8 * i) e' } := by
  have hft := h.frame t L p ht
  have hedit := editAt_store h ht hi e'
  refine ⟨⟨labelled_set h.labelled hedit ht fun u f _ hk => ?_, h.frame, fun u M q j hu hj => ?_,
    h.free, h.nodup⟩, fun _ _ _ hu => hu, List.suffix_refl _, fun _ hu => Or.inl hu,
    sameOff_mono (sameOff_entry t hi s.mem e') fun x hx => ?_⟩
  · rw [pteAt_store64 hft hft hi hi, if_pos ⟨rfl, rfl⟩] at hk
    exact hnext u f hk
  · show EntryOk M (pteAt (store64 s.mem (t.toNat + 8 * i) e') u j)
    rw [pteAt_store64 hft (h.frame u M q hu) hi hj]
    split
    · rename_i hsame
      rw [hsame.1, ht] at hu
      cases hu
      exact he
    · exact h.entries u M q j hu hj
  · exact ⟨t, by rw [ht]; exact Option.some_ne_none _, hx⟩

theorem grow_store (h : VmmInv own s) (ht : own t = some (L, p)) (hi : i < 512)
    (he : EntryOk L e')
    (hnext : ∀ u f, pageKind L e' = .next u f →
      ∃ f', pageKind L (pteAt s.mem t i) = .next u f') :
    Grow own own s { s with mem := store64 s.mem (t.toNat + 8 * i) e' } := by
  refine grow_set h ht hi he fun u f hk => ?_
  obtain ⟨f', hk'⟩ := hnext u f hk
  exact h.labelled t L p i u f' ht hi hk'

/-- The memory after a free frame `c` got the entries `ents` and was linked in. -/
structure LinkedIn (m m' : Mem) (t : Uptr) (i : Nat) (c : Uptr) (ents : Nat → U64) (tf : U64) :
    Prop where
  read : ∀ u j, FrameOk u → j < 512 → pteAt m' u j =
    if u = t ∧ j = i then c ||| tf else if u = c then ents j else pteAt m u j
  touch : SameOff (fun x => InFrame t x ∨ InFrame c x) m m'

/-- The labelling after `c` was linked in. -/
abbrev linkLabel (own : Uptr → Option (Nat × Nat)) (c : Uptr) (K p i : Nat) :
    Uptr → Option (Nat × Nat) :=
  Function.update own c (some (K, p * 512 + i))

/-- **A free frame is linked in as a table whose entries lead nowhere.** -/
theorem grow_link {ents : Nat → U64} {rest : List Uptr} {m' : Mem} (h : VmmInv own s)
    (ht : own t = some (K + 1, p)) (hK : K ≠ 0) (hi : i < 512) (hfree : s.free = c :: rest)
    (htf : TableFlags tf) (hl : LinkedIn s.mem m' t i c ents tf)
    (hents : ∀ j, j < 512 → EntryOk K (ents j) ∧ ∀ u f, pageKind K (ents j) ≠ .next u f) :
    Grow own (linkLabel own c K p i) s { mem := m', free := rest } ∧
      EditAt 512 own (pteAt s.mem) (pteAt m') t i := by
  have hcm : c ∈ s.free := by rw [hfree]; exact List.mem_cons_self
  obtain ⟨hfc, hc⟩ := h.free c hcm
  have hft := h.frame t _ _ ht
  have htc : t ≠ c := by
    intro heq
    rw [heq, hc] at ht
    cases ht
  have hnd := h.nodup
  rw [hfree, List.nodup_cons] at hnd
  have hedit : EditAt 512 own (pteAt s.mem) (pteAt m') t i := by
    intro u j hu hj hne
    obtain ⟨⟨M, q⟩, hu⟩ := Option.ne_none_iff_exists'.mp hu
    have huc : u ≠ c := by
      intro heq
      rw [heq, hc] at hu
      cases hu
    rw [hl.read u j (h.frame u M q hu) hj, if_neg hne, if_neg huc]
  have hlink : pageKind (K + 1) (pteAt m' t i) = .next c (Hit.under (c ||| tf)) := by
    rw [hl.read t i hft hi, if_pos ⟨rfl, rfl⟩]
    exact isTable_kind (isTable_link hfc htf) (by omega)
  have hsub : ∀ j, j < 512 → pteAt m' c j = ents j := by
    intro j hj
    rw [hl.read c j hfc hj, if_neg fun hs => htc hs.1.symm, if_pos rfl]
  have hold : ∀ u, u ≠ c → linkLabel own c K p i u = own u := fun u hu =>
    Function.update_of_ne hu _ _
  have hnew : linkLabel own c K p i c = some (K, p * 512 + i) := Function.update_self _ _ _
  refine ⟨⟨⟨?_, fun u M q hu => ?_, fun u M q j hu hj => ?_, fun f hf => ?_, hnd.2⟩,
    fun u M q hu => ?_, ?_, fun u hu => ?_, sameOff_mono hl.touch fun x hx => ?_⟩, hedit⟩
  · refine labelled_link h.labelled hedit ht hc hlink fun j u f hj => ?_
    rw [hsub j hj]
    exact (hents j hj).2 u f
  · by_cases huc : u = c
    · rw [huc]
      exact hfc
    · rw [hold u huc] at hu
      exact h.frame u M q hu
  · by_cases huc : u = c
    · subst huc
      rw [hnew] at hu
      cases hu
      show EntryOk K (pteAt m' u j)
      rw [hsub j hj]
      exact (hents j hj).1
    · rw [hold u huc] at hu
      show EntryOk M (pteAt m' u j)
      rw [hl.read u j (h.frame u M q hu) hj, if_neg huc]
      split
      · exact entryOk_isTable (isTable_link hfc htf)
      · exact h.entries u M q j hu hj
  · have hfm : f ∈ s.free := by rw [hfree]; exact List.mem_cons_of_mem _ hf
    have hne : f ≠ c := fun heq => hnd.1 (heq ▸ hf)
    exact ⟨(h.free f hfm).1, by rw [hold f hne]; exact (h.free f hfm).2⟩
  · have huc : u ≠ c := by
      intro heq
      rw [heq, hc] at hu
      cases hu
    rw [hold u huc]
    exact hu
  · rw [hfree]
    exact List.suffix_cons c rest
  · by_cases huc : u = c
    · rw [huc]
      exact Or.inr hcm
    · rw [hold u huc] at hu
      exact Or.inl hu
  · rcases hx with hx | hx
    · exact ⟨t, by rw [hold t htc, ht]; exact Option.some_ne_none _, hx⟩
    · exact ⟨c, by rw [hnew]; exact Option.some_ne_none _, hx⟩

end Steps

/-! ## 4. The pieces of a large page -/

/-- The flags `pd_split` gives the pieces in a table of level `K`. -/
def splitFlags (K : Nat) (pte : U64) : U64 :=
  if K = 2 then mmPtDefaultFlags pte ||| MM_PT_FLAG_VALID ||| MM_PT_FLAG_LARGE
  else mmPtDefaultFlags pte ||| MM_PT_FLAG_VALID

/-- The size of the pieces in a table of level `K`. -/
def splitSize (K : Nat) : Usize := if K = 2 then MM_PAGE_2MB else MM_PAGE_4KB

/-- The size of the page whose pieces stand in a table of level `K`. -/
def largeSize (K : Nat) : Usize := if K = 2 then MM_PAGE_1GB else MM_PAGE_2MB

/-- Piece `j` of the large page `pte`. -/
def splitEntry (K : Nat) (pte : U64) (j : Nat) : U64 :=
  ((pte &&& MM_PT_PADDR_MASK) + BitVec.ofNat 64 j * splitSize K) ||| splitFlags K pte

section Split

variable {K : Nat} (pte : U64) {j : Nat}

theorem splitFlags_addr (K : Nat) : splitFlags K pte &&& 0x000FFFFFFFFFF000 = 0#64 := by
  have hdef : mmPtDefaultFlags pte &&& 0x000FFFFFFFFFF000 = 0#64 := by
    unfold mmPtDefaultFlags
    rw [BitVec.and_assoc,
      show (MM_PT_FLAG_WRITE ||| MM_PT_FLAG_NX) &&& 0x000FFFFFFFFFF000 = 0#64 by decide,
      BitVec.and_zero]
  unfold splitFlags
  split
  · rw [BitVec.and_or_distrib_right, BitVec.and_or_distrib_right, hdef]
    decide
  · rw [BitVec.and_or_distrib_right, hdef]
    decide

/-- The address of a piece, before its flags. -/
theorem toNat_splitBase (hK : K = 1 ∨ K = 2) (hj : j < 512) :
    ((pte &&& MM_PT_PADDR_MASK) + BitVec.ofNat 64 j * splitSize K).toNat =
      pte.toNat / 2 ^ 12 % 2 ^ 36 * 2 ^ 12 + j * pageBytes K := by
  have hmask : (pte &&& MM_PT_PADDR_MASK).toNat = pte.toNat / 2 ^ 12 % 2 ^ 36 * 2 ^ 12 :=
    toNat_and_field 12 36 rfl
  have hmul : (BitVec.ofNat 64 j * splitSize K).toNat = j * pageBytes K := by
    rw [BitVec.toNat_mul, ofNat_toNat_lt (by omega)]
    rcases hK with rfl | rfl
    · rw [show (splitSize 1).toNat = 4096 from rfl, show pageBytes 1 = 4096 from rfl]
      omega
    · rw [show (splitSize 2).toNat = 2097152 from rfl, show pageBytes 2 = 2097152 from rfl]
      omega
  have hlt : j * pageBytes K ≤ 512 * 2097152 := by
    rcases hK with rfl | rfl
    · rw [show pageBytes 1 = 4096 from rfl]
      omega
    · rw [show pageBytes 2 = 2097152 from rfl]
      omega
  rw [BitVec.toNat_add, hmask, hmul]
  omega

theorem splitFlags_bit_valid : (splitFlags K pte).getLsbD 0 = true := by
  unfold splitFlags
  split
  · rw [BitVec.getLsbD_or, BitVec.getLsbD_or]
    simp [MM_PT_FLAG_VALID]
  · rw [BitVec.getLsbD_or]
    simp [MM_PT_FLAG_VALID]

theorem splitEntry_present : ptePresent (splitEntry K pte j) = true := by
  unfold splitEntry
  rw [ptePresent_eq, BitVec.getLsbD_or, splitFlags_bit_valid, Bool.or_true]

theorem splitEntry_large : pteLarge (splitEntry 2 pte j) = true := by
  unfold splitEntry splitFlags
  rw [pteLarge_eq, BitVec.getLsbD_or, if_pos rfl, BitVec.getLsbD_or]
  simp [MM_PT_FLAG_LARGE]

/-- A piece may stand where it is put, and leads nowhere. -/
theorem splitEntry_ok (hK : K = 1 ∨ K = 2) (hr : ReservedClear (K + 1) pte) (hj : j < 512) :
    EntryOk K (splitEntry K pte j) ∧ ∀ u f, pageKind K (splitEntry K pte j) ≠ .next u f := by
  rcases hK with rfl | rfl
  · refine ⟨fun _ h1 => absurd rfl h1, fun u f h => ?_⟩
    exact (pageKind_next h).2.2.1 rfl
  · refine ⟨fun _ _ => ?_, fun u f h => ?_⟩
    · rw [if_pos (splitEntry_large pte)]
      have hpage := page_or (a := (pte &&& MM_PT_PADDR_MASK) + BitVec.ofNat 64 j * splitSize 2)
        (splitFlags_addr pte 2)
      rw [toNat_splitBase pte (Or.inr rfl) hj] at hpage
      refine ⟨by decide, ?_⟩
      unfold splitEntry
      simp only [ReservedClear, pageBytes] at *
      omega
    · have hsmall := (pageKind_next h).2.1
      rw [splitEntry_large] at hsmall
      cases hsmall

end Split

/-! ## 5. `pd_get_or_create` -/

@[simp] theorem wp_pdLoad (pd : Uptr) (i : Nat) (s : VmmState) (Q : U64 → VmmState → Prop) :
    wp (pdLoad pd i) s Q ↔ Q (pteAt s.mem pd i) s :=
  wp_of_eq rfl

@[simp] theorem wp_pdStore (pd : Uptr) (i : Nat) (e : U64) (s : VmmState)
    (Q : Unit → VmmState → Prop) :
    wp (pdStore pd i e) s Q ↔ Q () { s with mem := store64 s.mem (pd.toNat + 8 * i) e } :=
  wp_modify _ _ _

theorem wp_pmmAllocFrame {s : VmmState} {c : Uptr} {rest : List Uptr} (h : s.free = c :: rest)
    (Q : Uptr → VmmState → Prop) :
    wp pmmAllocFrame s Q ↔ Q c { mem := fill s.mem c.toNat 4096 0, free := rest } := by
  unfold pmmAllocFrame
  simp only [wp_bind, wp_get, h, wp_set, wp_pure]

/-- A loop of stores to the entries of one table. -/
theorem wp_forUp_pdStore (n : Nat) (c : Uptr) (ents : Nat → U64) (s : VmmState)
    (Q : Unit → VmmState → Prop) :
    wp (forUp n fun k => pdStore c k (ents k)) s Q ↔
      Q () { s with mem := runUp n (fun k m => store64 m (c.toNat + 8 * k) (ents k)) s.mem } := by
  induction n generalizing Q with
  | zero => exact wp_pure _ _ _
  | succ n ih => rw [forUp, wp_bind, ih, wp_pdStore, runUp]

/-- The memory after `pd_split` put the pieces of `pte` into frame `c`. -/
def splitMem (m : Mem) (t : Uptr) (i : Nat) (c : Uptr) (K : Nat) (pte tf : U64) : Mem :=
  store64 (runUp 512 (fun k m => store64 m (c.toNat + 8 * k) (splitEntry K pte k))
    (fill m c.toNat 4096 0)) (t.toNat + 8 * i) (c ||| tf)

/-- The large page of level `K + 1` is put into pieces of level `K`. -/
theorem wp_pdSplit {s : VmmState} {t c : Uptr} {i K : Nat} {tf : U64} {rest : List Uptr}
    (hp : ptePresent (pteAt s.mem t i) = true) (hl : pteLarge (pteAt s.mem t i) = true)
    (hK : K = 1 ∨ K = 2) (hfree : s.free = c :: rest) (Q : Uptr → VmmState → Prop) :
    wp (pdSplit t i (largeSize K) (splitSize K) tf) s Q ↔
      Q c { mem := splitMem s.mem t i c K (pteAt s.mem t i) tf, free := rest } := by
  have hsizes : ¬ ¬ ((largeSize K = MM_PAGE_1GB ∧ splitSize K = MM_PAGE_2MB) ∨
      (largeSize K = MM_PAGE_2MB ∧ splitSize K = MM_PAGE_4KB)) := by
    rcases hK with rfl | rfl <;> decide
  have hcount : (largeSize K / splitSize K).toNat = 512 := by
    rcases hK with rfl | rfl <;> decide
  have hflags : (if splitSize K = MM_PAGE_2MB then
        mmPtDefaultFlags (pteAt s.mem t i) ||| MM_PT_FLAG_VALID ||| MM_PT_FLAG_LARGE
      else mmPtDefaultFlags (pteAt s.mem t i) ||| MM_PT_FLAG_VALID) =
      splitFlags K (pteAt s.mem t i) := by
    rcases hK with rfl | rfl
    · rw [if_neg (by decide)]
      rfl
    · rw [if_pos (by decide)]
      rfl
  unfold pdSplit
  rw [wp_bind, wp_pdLoad, if_neg (by simp [hp, hl]), if_neg hsizes]
  simp only [hflags, hcount]
  rw [wp_bind, wp_pmmAllocFrame hfree, wp_bind]
  refine (wp_forUp_pdStore 512 c (splitEntry K (pteAt s.mem t i)) _ _).trans ?_
  rw [wp_bind, wp_pdStore, wp_pure]
  rfl

/-- The three ways from an entry of level `K + 1` to the table `c` of level `K` behind it. -/
inductive Descent (s s' : VmmState) (t : Uptr) (i K : Nat) (tf : U64) (c : Uptr) : Prop where
  | created (hold : ptePresent (pteAt s.mem t i) = false) (hnew : pteAt s'.mem t i = c ||| tf)
      (hsub : ∀ j, j < 512 → pteAt s'.mem c j = 0)
  | shared (hold : IsTable (pteAt s.mem t i) c)
      (hnew : pteAt s'.mem t i = pteAt s.mem t i ∨
        pteAt s'.mem t i = pteAt s.mem t i ||| MM_PT_FLAG_USER)
  | split (hold : ptePresent (pteAt s.mem t i) = true) (hl : pteLarge (pteAt s.mem t i) = true)
      (hK : K = 1 ∨ K = 2) (hnew : pteAt s'.mem t i = c ||| tf)
      (hsub : ∀ j, j < 512 → pteAt s'.mem c j = splitEntry K (pteAt s.mem t i) j)

/-- **What `pd_get_or_create` does to entry `i` of table `t`** of level `K + 1`. -/
structure Descended (own own' : Uptr → Option (Nat × Nat)) (s s' : VmmState) (t : Uptr)
    (i K p : Nat) (tf : U64) (c : Uptr) : Prop where
  grow : Grow own own' s s'
  edit : EditAt 512 own (pteAt s.mem) (pteAt s'.mem) t i
  child : own' c = some (K, p * 512 + i)
  known : ∀ u, own' u ≠ none → own u = none → u = c
  frames : s.free.length ≤ s'.free.length + 1
  table : IsTable (pteAt s'.mem t i) c
  user : tf = MM_PT_USER_TABLE_FLAGS → (pteAt s'.mem t i).getLsbD 2 = true
  how : Descent s s' t i K tf c

section Descend

variable {own : Uptr → Option (Nat × Nat)} {s : VmmState} {t c : Uptr} {i K p : Nat} {tf : U64}
  {rest : List Uptr}

/-- The memory after an empty table was linked in. -/
theorem linkedIn_create (h : VmmInv own s) (ht : own t = some (K + 1, p)) (hi : i < 512)
    (hfree : s.free = c :: rest) :
    LinkedIn s.mem (store64 (fill s.mem c.toNat 4096 0) (t.toNat + 8 * i) (c ||| tf)) t i c
      (fun _ => 0) tf := by
  have hfc := (h.free c (by rw [hfree]; exact List.mem_cons_self)).1
  refine ⟨fun u j hu hj => ?_, ?_⟩
  · rw [pteAt_store64 (h.frame t _ _ ht) hu hi hj, pteAt_fill hfc hu hj]
  · refine sameOff_trans (sameOff_mono (sameOff_fill (S := InFrame c) fun x hx hx' => ⟨hx, hx'⟩)
      fun x hx => Or.inr hx) (sameOff_mono (sameOff_entry t hi _ _) fun x hx => Or.inl hx)

/-- The memory after the pieces of a large page were linked in. -/
theorem linkedIn_split (h : VmmInv own s) (ht : own t = some (K + 1, p)) (hi : i < 512)
    (hfree : s.free = c :: rest) (pte : U64) :
    LinkedIn s.mem (splitMem s.mem t i c K pte tf) t i c (splitEntry K pte) tf := by
  have hfc := (h.free c (by rw [hfree]; exact List.mem_cons_self)).1
  refine ⟨fun u j hu hj => ?_, ?_⟩
  · unfold splitMem
    rw [pteAt_store64 (h.frame t _ _ ht) hu hi hj, pteAt_runUp hfc hu (Nat.le_refl _) hj,
      pteAt_fill hfc hu hj]
    by_cases huc : u = c
    · simp only [huc, hj, and_self, if_true]
    · simp only [huc, false_and, if_false]
  · refine sameOff_trans (sameOff_mono (sameOff_trans
      (sameOff_fill (S := InFrame c) fun x hx hx' => ⟨hx, hx'⟩)
      (sameOff_entries c (Nat.le_refl _) _ _)) fun x hx => Or.inr hx)
      (sameOff_mono (sameOff_entry t hi _ _) fun x hx => Or.inl hx)

/-- The facts common to a table linked in. -/
theorem descended_link {m' : Mem} {ents : Nat → U64} (h : VmmInv own s)
    (ht : own t = some (K + 1, p)) (hK : K ≠ 0) (hi : i < 512) (hfree : s.free = c :: rest)
    (htf : TableFlags tf) (hl : LinkedIn s.mem m' t i c ents tf)
    (hents : ∀ j, j < 512 → EntryOk K (ents j) ∧ ∀ u f, pageKind K (ents j) ≠ .next u f)
    (hhow : pteAt m' t i = c ||| tf → (∀ j, j < 512 → pteAt m' c j = ents j) →
      Descent s { mem := m', free := rest } t i K tf c) :
    Descended own (linkLabel own c K p i) s { mem := m', free := rest } t i K p tf c := by
  obtain ⟨hfc, hc⟩ := h.free c (by rw [hfree]; exact List.mem_cons_self)
  have htc : c ≠ t := by
    intro heq
    rw [← heq, hc] at ht
    cases ht
  obtain ⟨hgrow, hedit⟩ := grow_link h ht hK hi hfree htf hl hents
  have hnew : pteAt m' t i = c ||| tf := by
    rw [hl.read t i (h.frame t _ _ ht) hi, if_pos ⟨rfl, rfl⟩]
  refine ⟨hgrow, hedit, Function.update_self _ _ _, fun u hu hold => ?_, by rw [hfree]; simp, ?_,
    ?_, hhow hnew fun j hj => ?_⟩
  · by_contra huc
    rw [linkLabel, Function.update_of_ne huc] at hu
    exact hu hold
  · show IsTable (pteAt m' t i) c
    rw [hnew]
    exact isTable_link hfc htf
  · intro huser
    show (pteAt m' t i).getLsbD 2 = true
    rw [hnew, or_bit hfc (Or.inl (by decide)), huser]
    rfl
  · rw [hl.read c j hfc hj, if_neg fun hs => htc hs.1, if_pos rfl]

/-- The table behind a table entry is labelled. -/
theorem child_label (h : VmmInv own s) (ht : own t = some (K + 1, p)) (hK : K ≠ 0)
    (hi : i < 512) (hold : IsTable (pteAt s.mem t i) c) : own c = some (K, p * 512 + i) := by
  obtain ⟨M, hM, hc⟩ := h.labelled t _ _ i c _ ht hi (isTable_kind hold (by omega))
  cases hM
  exact hc

/-- The facts about a table shared as it is. -/
theorem descended_same (h : VmmInv own s) (ht : own t = some (K + 1, p)) (hK : K ≠ 0)
    (hi : i < 512) (hold : IsTable (pteAt s.mem t i) c)
    (huser : tf = MM_PT_USER_TABLE_FLAGS → (pteAt s.mem t i).getLsbD 2 = true) :
    Descended own own s s t i K p tf c :=
  ⟨grow_refl h, fun _ _ _ _ _ => rfl, child_label h ht hK hi hold, fun _ hu h0 => absurd h0 hu,
    Nat.le_succ _, hold, huser, .shared hold (Or.inl rfl)⟩

/-- The facts about a table shared, whose entry gets the user bit. -/
theorem descended_user (h : VmmInv own s) (ht : own t = some (K + 1, p)) (hK : K ≠ 0)
    (hi : i < 512) (hold : IsTable (pteAt s.mem t i) c) :
    Descended own own s
      { s with mem := store64 s.mem (t.toNat + 8 * i) (pteAt s.mem t i ||| MM_PT_FLAG_USER) }
      t i K p tf c := by
  have hft := h.frame t _ _ ht
  have htable := isTable_user hold
  have hread : pteAt (store64 s.mem (t.toNat + 8 * i) (pteAt s.mem t i ||| MM_PT_FLAG_USER)) t i =
      pteAt s.mem t i ||| MM_PT_FLAG_USER := by
    rw [pteAt_store64 hft hft hi hi, if_pos ⟨rfl, rfl⟩]
  refine ⟨grow_store h ht hi (entryOk_isTable htable) fun u f hk => ?_, editAt_store h ht hi _,
    child_label h ht hK hi hold, fun _ hu h0 => absurd h0 hu, Nat.le_succ _, ?_, fun _ => ?_,
    .shared hold (Or.inr hread)⟩
  · rw [isTable_kind htable (by omega)] at hk
    cases hk
    exact ⟨_, isTable_kind hold (by omega)⟩
  · exact (congrArg (IsTable · c) hread).mpr htable
  · exact (congrArg (BitVec.getLsbD · 2) hread).trans (by rw [BitVec.getLsbD_or]; simp; right; rfl)

end Descend

/-- The level of the table the entry leads to, as the source passes it. -/
def DescendLevel (level : PageMapLevel) (K : Nat) : Prop := level.num = K + 1 ∧ K ≠ 0

section GetOrCreate

variable {own : Uptr → Option (Nat × Nat)} {s : VmmState} {t c : Uptr} {i K p : Nat} {tf : U64}
  {level : PageMapLevel} {rest : List Uptr}

/-- A present entry that is no page leads to a table. -/
theorem isTable_of_small (h : VmmInv own s) (ht : own t = some (K + 1, p)) (hK : K ≠ 0)
    (hi : i < 512) (hp : ptePresent (pteAt s.mem t i) = true)
    (hl : pteLarge (pteAt s.mem t i) = false) :
    IsTable (pteAt s.mem t i) (pteP2v (pteAt s.mem t i)) := by
  have hlow := h.entries t _ _ i ht hi hp (by omega)
  rw [if_neg (by simp [hl])] at hlow
  have htable : IsTable (pteAt s.mem t i) (hwTable (pteAt s.mem t i)) := ⟨hp, hl, hlow, rfl⟩
  rw [isTable_pteP2v htable]
  exact htable

/-- An entry that leads to a table is shared, and no frame is taken. -/
theorem wp_pdGetOrCreate_shared (h : VmmInv own s) (ht : own t = some (K + 1, p)) (hi : i < 512)
    (hK : K ≠ 0) (hold : IsTable (pteAt s.mem t i) c) :
    wp (pdGetOrCreate t i level tf) s fun c' s' =>
      c' = c ∧ s'.free = s.free ∧ Descended own own s s' t i K p tf c' := by
  have hbit := and_twoPow_ne_zero (pteAt s.mem t i) (k := 2) (by decide)
  have hc := isTable_pteP2v hold
  unfold pdGetOrCreate
  rw [wp_bind, wp_pdLoad, if_neg (by simp [hold.present]), if_pos (by simp [hold.small]), wp_bind]
  by_cases hpatch : tf &&& MM_PT_FLAG_USER ≠ 0 ∧ pteAt s.mem t i &&& MM_PT_FLAG_USER = 0
  · rw [if_pos hpatch, wp_pdStore, wp_pure, hc]
    exact ⟨rfl, rfl, descended_user h ht hK hi hold⟩
  · rw [if_neg hpatch, wp_pure, wp_pure, hc]
    refine ⟨rfl, rfl, descended_same h ht hK hi hold fun huser => ?_⟩
    rw [← hbit, bne_iff_ne]
    intro h0
    exact hpatch ⟨by rw [huser]; decide, h0⟩

/-- Any other entry gets the first free frame for its table. -/
theorem wp_pdGetOrCreate_made (h : VmmInv own s) (ht : own t = some (K + 1, p)) (hi : i < 512)
    (hlev : DescendLevel level K) (htf : TableFlags tf) (hfree : s.free = c :: rest)
    (hold : ∀ u, ¬ IsTable (pteAt s.mem t i) u) :
    wp (pdGetOrCreate t i level tf) s fun c' s' =>
      c' = c ∧ s'.free = rest ∧ ∃ own', Descended own own' s s' t i K p tf c' := by
  obtain ⟨hnum, hK⟩ := hlev
  unfold pdGetOrCreate
  rw [wp_bind, wp_pdLoad]
  cases hp : ptePresent (pteAt s.mem t i) with
  | false =>
      rw [if_pos (by rfl), wp_bind, wp_pmmAllocFrame hfree, wp_bind, wp_pdStore, wp_pure]
      refine ⟨rfl, rfl, _, descended_link h ht hK hi hfree htf (linkedIn_create h ht hi hfree)
        (fun j _ => ⟨entryOk_zero, fun u f hk => ?_⟩) fun hnew hsub => .created hp hnew hsub⟩
      exact absurd (pageKind_next hk).1 (by decide)
  | true =>
      rw [if_neg (by decide)]
      cases hl : pteLarge (pteAt s.mem t i) with
      | false => exact absurd (isTable_of_small h ht hK hi hp hl) (hold _)
      | true =>
          have hlarge := h.entries t _ _ i ht hi hp (by omega)
          rw [if_pos hl] at hlarge
          have hK' : K = 1 ∨ K = 2 := by omega
          have hsplit : wp (pdSplit t i (largeSize K) (splitSize K) tf) s fun c' s' =>
              c' = c ∧ s'.free = rest ∧ ∃ own', Descended own own' s s' t i K p tf c' := by
            rw [wp_pdSplit hp hl hK' hfree]
            exact ⟨rfl, rfl, _, descended_link h ht hK hi hfree htf (linkedIn_split h ht hi hfree _)
              (fun j hj => splitEntry_ok _ hK' hlarge.2 hj)
              fun hnew hsub => .split hp hl hK' hnew hsub⟩
          rw [if_neg (by decide)]
          cases level with
          | PML1 => cases hnum; exact absurd rfl hK
          | PML2 => cases hnum; exact hsplit
          | PML3 => cases hnum; exact hsplit
          | PML4 => cases hnum; exact absurd hlarge.1 (by decide)
          | PML5 => cases hnum; exact absurd hlarge.1 (by decide)

/-- **`pd_get_or_create` finds or makes the table behind an entry.** -/
theorem wp_pdGetOrCreate (h : VmmInv own s) (ht : own t = some (K + 1, p)) (hi : i < 512)
    (hlev : DescendLevel level K) (htf : TableFlags tf) (hfree : s.free ≠ []) :
    wp (pdGetOrCreate t i level tf) s fun c s' =>
      ∃ own', Descended own own' s s' t i K p tf c := by
  by_cases hold : ∃ u, IsTable (pteAt s.mem t i) u
  · obtain ⟨u, hold⟩ := hold
    refine wp_mono (wp_pdGetOrCreate_shared h ht hi hlev.2 hold) fun c s' hd => ?_
    exact ⟨own, hd.2.2⟩
  · obtain ⟨c, rest, hfree⟩ := List.exists_cons_of_ne_nil hfree
    refine wp_mono (wp_pdGetOrCreate_made h ht hi hlev htf hfree fun u hu => hold ⟨u, hu⟩)
      fun c s' hd => ?_
    exact hd.2.2

end GetOrCreate

end Slightx
