/-
  File:      Slightx/Mem/LiballocCalls.lean
  Subject:   `malloc` and `free` over boundary tags.

  Source: vendor/liballoc/src/liballoc.c.

  * `LibPolicy` -- free blocks are on the list of their size and never neighbours, and at most
    `MAXCOMPLETE` whole spans are kept for a size
  * `findTag_first` -- the search of `malloc` is first fit on one list
  * `held_meltLefts`, `held_absorbRights` -- the loops of `free`, each of one pass at most
  * `inv_takeTag`, `ends_allocateNewTag`, `held_trimTag` -- a block for `malloc`
  * **`wp_libFree`**, **`ends_libMalloc`** -- what the two calls do to blocks, bytes and pages
-/
import Slightx.Lib.Bits
import Slightx.Mem.LiballocInv
import Mathlib.Data.List.Perm.Subperm

namespace Slightx

open Lib Function

/-! ## 1. The policy -/

/-- The block has no neighbours: it is a span of pages. -/
def LibState.whole {ω : Type} (s : LibState ω) (a : Uptr) : Bool :=
  decide ((s.tag a).splitLeft = 0 ∧ (s.tag a).splitRight = 0)

/-- The free list of a block. -/
def LibState.bin {ω : Type} (s : LibState ω) (a : Uptr) : Nat :=
  binOf ((s.tag a).realSize - SIZEOF_BOUNDARY_TAG.setWidth 32)

def Listed (lists : Nat → List Uptr) (a : Uptr) : Prop := ∃ i, a ∈ lists i

/-- **The free blocks.** -/
structure LibPolicy {ω : Type} (area : Uptr → Option Extent) (lists : Nat → List Uptr)
    (s : LibState ω) : Prop where
  binned : ∀ i a, a ∈ lists i → s.bin a = i
  coalesced : Coalesced (s.tiles area) (Listed lists)
  counted : ∀ i, s.completePages i = ((lists i).countP s.whole : Nat)
  kept : ∀ i, s.completePages i ≤ MAXCOMPLETE

section Policy

variable {ω : Type} {spans : Uptr → Option Nat} {blocks : Uptr → Option Usize} {X : Uptr → Prop}
  {area area' : Uptr → Option Extent} {lists lists' : Nat → List Uptr} {s s' : LibState ω}
  {a b c l p : Uptr} {A : Extent} {i j : Nat} {n : Usize}

theorem listed_of_erase (hb : b ∈ update lists i ((lists i).erase a) j) : b ∈ lists j := by
  by_cases hj : j = i
  · rw [hj, update_self] at hb
    exact hj ▸ List.mem_of_mem_erase hb
  · rw [update_of_ne hj] at hb
    exact hb

theorem countP_erase (q : Uptr → Bool) (ha : a ∈ lists i) :
    (lists i).countP q = ((lists i).erase a).countP q + if q a then 1 else 0 := by
  rw [(List.perm_cons_erase ha).countP_eq, List.countP_cons]

/-- Whole blocks are those of the size of their area. -/
theorem whole_iff (h : LibCore spans blocks X area lists s) (hA : area a = some A) :
    s.whole a = true ↔ a.toNat = A.base ∧ a.toNat + (s.tag a).realSize.toNat = A.stop := by
  have hfirst : linkOf (s.tag a).splitLeft = none ↔ a.toNat = A.base := h.tiling.first a A hA
  have hlast : linkOf (s.tag a).splitRight = none ↔
      a.toNat + (s.tag a).realSize.toNat = A.stop := h.tiling.last a A hA
  unfold LibState.whole
  rw [decide_eq_true_eq, ← hfirst, ← hlast, linkOf_none, linkOf_none]

/-- A block of the same size in the same area is as whole as before. -/
theorem whole_congr (h : LibCore spans blocks X area lists s) {spans' : Uptr → Option Nat}
    {blocks' : Uptr → Option Usize} {X' : Uptr → Prop}
    (h' : LibCore spans' blocks' X' area' lists' s')
    (hA : area a = some A) (hA' : area' a = some A)
    (hsize : (s'.tag a).realSize = (s.tag a).realSize) : s'.whole a = s.whole a := by
  rw [Bool.eq_iff_iff, whole_iff h hA, whole_iff h' hA', hsize]

theorem bin_congr (hsize : (s'.tag a).realSize = (s.tag a).realSize) : s'.bin a = s.bin a := by
  unfold LibState.bin
  rw [hsize]

/-- The tags of the blocks are the same. -/
theorem core_tags (h : LibCore spans blocks X area lists s)
    (htag : ∀ b, IsBlock area b → s'.tag b = s.tag b) (hfree : s'.freePages = s.freePages) :
    LibCore spans blocks X area lists s' := by
  have hused : ∀ b, Used area s' b ↔ Used area s b := by
    intro b
    refine and_congr_right fun hb => ?_
    rw [htag b hb]
  refine ⟨tiling_tags h.tiling fun b hb => ?_, fun b B hb => ?_, h.span, h.base, h.bound, ?_,
    fun p n hp => ?_, fun b hb => h.owner b ((hused b).mp hb),
    fun b hb => (hused b).mpr (h.taken b hb)⟩
  · rw [htag b hb]
    exact ⟨rfl, rfl, rfl⟩
  · have htagb := h.block b B hb
    have he := htag b (isBlock_some hb)
    exact ⟨he ▸ htagb.magic, he ▸ htagb.least, htagb.aligned⟩
  · refine shelved_congr h.shelved (funext fun j => congrArg linkOf (congrFun hfree j))
      (fun b hb => ?_) fun b hb => ?_
    · show Links.mk (linkOf (s'.tag b).prev) (linkOf (s'.tag b).next) = _
      rw [htag b hb]
      rfl
    · show shelfOf (s'.tag b).index = _
      rw [htag b hb]
      rfl
  · obtain ⟨b, hpb, hX, hb, hsize, hroom⟩ := h.live p n hp
    refine ⟨b, hpb, hX, (hused b).mpr hb, ?_, ?_⟩
    · rw [htag b hb.1]
      exact hsize
    · rw [htag b hb.1]
      exact hroom

/-- The tables besides the free lists. -/
theorem core_statics (h : LibCore spans blocks X area lists s) (hm : s'.mem = s.mem)
    (hf : s'.freePages = s.freePages) : LibCore spans blocks X area lists s' :=
  core_tags h (fun _ _ => LibState.tag_congr hm) hf

theorem core_taken {X' : Uptr → Prop} (h : LibCore spans blocks X area lists s)
    (hX : ∀ b, X' b ↔ X b) : LibCore spans blocks X' area lists s := by
  obtain rfl : X' = X := funext fun b => propext (hX b)
  exact h

/-! ## 2. The search -/

/-- The tag has room for `size` bytes and a tag more. -/
def LibState.hasRoom (s : LibState ω) (size : Usize) (a : Uptr) : Bool :=
  decide (size + SIZEOF_BOUNDARY_TAG ≤ (s.tag a).realSize.setWidth 64 - SIZEOF_BOUNDARY_TAG)

theorem findTag_follows {l' : List Uptr} (hnull : ∀ a ∈ l', a ≠ 0) (size : Usize) {passes : Nat}
    {q : Option Uptr} (hs : Strung s.shelves.node q l' none) (hp : linkOf p = l'.head?)
    (hlen : l'.length ≤ passes) :
    s.findTag size passes p = (l'.find? (s.hasRoom size)).getD 0 := by
  induction l' generalizing p q passes with
  | nil =>
      have hp0 : p = 0 := linkOf_none.mp hp
      cases passes with
      | zero => rfl
      | succ passes =>
          unfold LibState.findTag
          rw [if_pos hp0]
          rfl
  | cons a k ih =>
      obtain ⟨-, hnext, hk⟩ := hs
      obtain ⟨rfl, hne⟩ := linkOf_some.mp hp
      cases passes with
      | zero => exact absurd hlen (Nat.not_succ_le_zero _)
      | succ passes =>
          unfold LibState.findTag
          rw [if_neg hne, List.find?_cons]
          by_cases hroom : s.hasRoom size p = true
          · rw [hroom, if_pos (of_decide_eq_true hroom)]
            rfl
          · rw [Bool.not_eq_true] at hroom
            rw [hroom, if_neg (of_decide_eq_false hroom)]
            refine ih (fun b hb => hnull b (List.mem_cons_of_mem _ hb)) hk ?_
              (Nat.le_of_succ_le_succ hlen)
            exact hnext.trans (Option.or_none ..)

/-- There are no more blocks than addresses. -/
theorem length_le_tags {k : List Uptr} (hk : k.Nodup) : k.length ≤ TAGS := by
  have hmap : (k.map BitVec.toNat).Nodup := hk.map fun _ _ he => BitVec.eq_of_toNat_eq he
  have hsub : k.map BitVec.toNat ⊆ List.range TAGS := by
    intro x hx
    obtain ⟨a, -, rfl⟩ := List.mem_map.mp hx
    exact List.mem_range.mpr a.isLt
  have hlen := (List.subperm_of_subset hmap hsub).length_le
  rwa [List.length_map, List.length_range] at hlen

/-- **First fit on one list.** -/
theorem findTag_first (h : LibCore spans blocks X area lists s) (size : Usize) (i : Nat) :
    s.findTag size TAGS (s.freePages i) = ((lists i).find? (s.hasRoom size)).getD 0 := by
  have hd := h.shelved.list i
  refine findTag_follows (fun a ha => ?_) size hd.strung hd.head (length_le_tags hd.nodup)
  exact (core_headers h).nonzero a ((h.shelved.member i a).mp ha).1

theorem room_of_hasRoom {size : Usize} (hleast : 48 ≤ (s.tag a).realSize.toNat)
    (hsize : size.toNat + 48 < 2 ^ 64)
    (h : s.hasRoom size a = true) : 96 + size.toNat ≤ (s.tag a).realSize.toNat := by
  have hroom := of_decide_eq_true h
  have h48 : SIZEOF_BOUNDARY_TAG.toNat = 48 := rfl
  have hwide : ((s.tag a).realSize.setWidth 64 : U64).toNat = (s.tag a).realSize.toNat := by
    have hlt := (s.tag a).realSize.isLt
    rw [BitVec.toNat_setWidth, Nat.mod_eq_of_lt (by omega)]
  rw [BitVec.le_def, BitVec.toNat_add, h48, Nat.mod_eq_of_lt hsize,
    BitVec.toNat_sub_of_le (by rw [BitVec.le_def, hwide, h48]; exact hleast), hwide, h48] at hroom
  omega

/-! ## 3. A block for `malloc` -/

/-- The bin and the wholeness of the blocks on the lists are what they were. -/
structure SameBins (lists' : Nat → List Uptr) (s s' : LibState ω) : Prop where
  bin : ∀ i a, a ∈ lists' i → s'.bin a = s.bin a
  whole : ∀ i a, a ∈ lists' i → s'.whole a = s.whole a

/-- A block off list `i`. -/
theorem counted_erased (hp : LibPolicy area lists s) (ha : a ∈ lists i)
    (hsame : SameBins (update lists i ((lists i).erase a)) s s')
    (hcomplete : ∀ j, s'.completePages j =
      s.completePages j - if j = i ∧ s.whole a = true then 1 else 0) :
    (∀ j, s'.completePages j =
        ((update lists i ((lists i).erase a) j).countP s'.whole : Nat)) ∧
      ∀ j, s'.completePages j ≤ MAXCOMPLETE := by
  have hcongr : ∀ j, (update lists i ((lists i).erase a) j).countP s'.whole =
      (update lists i ((lists i).erase a) j).countP s.whole := fun j =>
    List.countP_congr fun b hb => by rw [hsame.whole j b hb]
  refine ⟨fun j => ?_, fun j => ?_⟩
  · rw [hcongr, hcomplete, hp.counted]
    by_cases hj : j = i
    · rw [hj, update_self, countP_erase s.whole ha]
      by_cases hw : s.whole a = true
      · rw [if_pos hw, if_pos ⟨rfl, hw⟩]
        omega
      · rw [if_neg hw, if_neg fun h => hw h.2]
        omega
    · rw [update_of_ne hj, if_neg fun h => hj h.1]
      omega
  · have hle := hp.kept j
    rw [hcomplete]
    split
    · omega
    · omega

/-- The blocks next to `a` are in use. -/
structure Alone (lists : Nat → List Uptr) (s : LibState ω) (a : Uptr) : Prop where
  left : ∀ b, linkOf (s.tag a).splitLeft = some b → ¬ Listed lists b
  right : ∀ b, linkOf (s.tag a).splitRight = some b → ¬ Listed lists b

theorem alone_of_listed (h : LibCore spans blocks X area lists s) (hp : LibPolicy area lists s)
    (ha : Listed lists a) : Alone lists s a := by
  obtain ⟨i, hai⟩ := ha
  obtain ⟨A, hA⟩ := isBlock_area ((h.shelved.member i a).mp hai).1
  refine ⟨fun b hb hlisted => ?_, fun b hb => hp.coalesced a A b hA ⟨i, hai⟩ hb⟩
  obtain ⟨hB, hnext, -⟩ := tiling_left h.tiling hA hb
  exact hp.coalesced b A a hB hlisted hnext ⟨i, hai⟩

/-- **A free block is taken for `malloc`.** -/
theorem inv_takeTag (h : LibCore spans blocks X area lists s) (hp : LibPolicy area lists s)
    (ha : a ∈ lists i) :
    LibCore spans blocks (fun b => b = a ∨ X b) area (update lists i ((lists i).erase a))
        (s.takeTag i a) ∧
      LibPolicy area (update lists i ((lists i).erase a)) (s.takeTag i a) ∧
      BlocksKept blocks s.mem (s.takeTag i a).mem ∧
      ((s.takeTag i a).tag a).realSize = (s.tag a).realSize ∧
      Alone (update lists i ((lists i).erase a)) (s.takeTag i a) a := by
  obtain ⟨hcore, hkept⟩ := core_remove h ha
  have hD := core_headers h
  have hrem := LibState.removable hD h.shelved ha
  have hfields := fun b (hb : IsBlock area b) => removeTag_fields hD hrem hb
  have hstat := LibState.removeTag_statics (s := s) (a := a)
  have hcomplete₁ : (s.removeTag a).completePages = s.completePages := by
    rw [hstat]
    split
    · rfl
    · rfl
  have halone := alone_of_listed h hp ⟨i, ha⟩
  have hablock := ((h.shelved.member i a).mp ha).1
  unfold LibState.takeTag
  dsimp only
  generalize s.removeTag a = s₁ at hcore hkept hfields hcomplete₁
  -- the second step is about the count only
  generalize hs₂ : (if (s₁.tag a).splitLeft = 0 ∧ (s₁.tag a).splitRight = 0 then
    s₁.addComplete i (-1) else s₁) = s₂
  have hmem : s₂.mem = s₁.mem := by
    rw [← hs₂]
    split
    · rfl
    · rfl
  have hfree : s₂.freePages = s₁.freePages := by
    rw [← hs₂]
    split
    · rfl
    · rfl
  have hcore₂ := core_statics hcore hmem hfree
  have htag : ∀ b, s₂.tag b = s₁.tag b := fun b => LibState.tag_congr hmem
  have hsame : SameBins (update lists i ((lists i).erase a)) s s₂ := by
    refine ⟨fun j b hb => bin_congr ?_, fun j b hb => ?_⟩
    · rw [htag]
      exact (hfields b ((h.shelved.member j b).mp (listed_of_erase hb)).1).2.2.1
    · obtain ⟨-, -, -, hl, hr, -⟩ := hfields b ((h.shelved.member j b).mp (listed_of_erase hb)).1
      unfold LibState.whole
      rw [htag, hl, hr]
  have hcount := counted_erased hp ha hsame fun j => by
    obtain ⟨-, -, -, hl, hr, -⟩ := hfields a hablock
    have hwhole : s.whole a = true ↔ (s₁.tag a).splitLeft = 0 ∧ (s₁.tag a).splitRight = 0 := by
      unfold LibState.whole
      rw [decide_eq_true_eq, hl, hr]
    rw [← hs₂]
    by_cases hw : (s₁.tag a).splitLeft = 0 ∧ (s₁.tag a).splitRight = 0
    · rw [if_pos hw]
      show update s₁.completePages i (s₁.completePages i + -1) j = _
      by_cases hj : j = i
      · rw [hj, update_self, if_pos ⟨rfl, hwhole.mpr hw⟩, hcomplete₁]
        rfl
      · rw [update_of_ne hj, if_neg fun hn => hj hn.1, hcomplete₁, Int.sub_zero]
    · rw [if_neg hw, if_neg fun hn => hw (hwhole.mp hn.2), hcomplete₁, Int.sub_zero]
  refine ⟨hcore₂, ⟨fun j b hb => ?_, ?_, hcount.1, hcount.2⟩, hmem ▸ hkept, ?_, ?_, ?_⟩
  · rw [hsame.bin j b hb]
    exact hp.binned j b (listed_of_erase hb)
  · refine coalesced_mono (coalesced_congr hp.coalesced rfl fun b B hb => ?_) fun b hb => ?_
    · obtain ⟨-, -, -, hl, hr, -⟩ := hfields b (isBlock_some hb)
      exact sides_eq (by rw [htag, hl]) (by rw [htag, hr])
    · obtain ⟨j, hj⟩ := hb
      exact ⟨j, listed_of_erase hj⟩
  · rw [htag]
    exact (hfields a hablock).2.2.1
  · intro b hb hl
    obtain ⟨j, hj⟩ := hl
    rw [htag, (hfields a hablock).2.2.2.1] at hb
    exact halone.left b hb ⟨j, listed_of_erase hj⟩
  · intro b hb hl
    obtain ⟨j, hj⟩ := hl
    rw [htag, (hfields a hablock).2.2.2.2.1] at hb
    exact halone.right b hb ⟨j, listed_of_erase hj⟩

/-! ## 4. The loops of `free` -/

/-- The blocks on the free lists are those whose index is not negative. -/
theorem listed_iff (h : LibCore spans blocks X area lists s) (hb : IsBlock area b) :
    Listed lists b ↔ 0 ≤ (s.tag b).index.toInt := by
  rw [← shelfOf_ne_none]
  refine ⟨fun ⟨j, hj⟩ => ?_, fun hn => ?_⟩
  · have hshelf : shelfOf (s.tag b).index = some j := ((h.shelved.member j b).mp hj).2
    rw [hshelf]
    exact Option.some_ne_none j
  · obtain ⟨j, hj⟩ := Option.ne_none_iff_exists'.mp hn
    exact ⟨j, (h.shelved.member j b).mpr ⟨hb, hj⟩⟩

theorem used_not_listed (h : LibCore spans blocks X area lists s) (hb : Used area s b) :
    ¬ Listed lists b := by
  rintro ⟨j, hj⟩
  exact used_unlisted h.shelved hb j hj

theorem isBlock_erased (hb : IsBlock (update area a none) b) : b ≠ a ∧ IsBlock area b := by
  unfold IsBlock at hb
  by_cases hba : b = a
  · rw [hba, update_self] at hb
    exact absurd rfl hb
  · rw [update_of_ne hba] at hb
    exact ⟨hba, hb⟩

/-- **Two neighbours, of which `c` was free, are one block in use.** -/
theorem policy_joined {X' : Uptr → Prop} (h : LibCore spans blocks X area lists s)
    (hp : LibPolicy area lists s) (hl : area l = some A) (hn : linkOf (s.tag l).splitRight = some a)
    (hc : c ∈ lists i) (hca : c = l ∨ c = a)
    (h' : LibCore spans blocks X' (update area a none) (update lists i ((lists i).erase c)) s')
    (hout : ¬ Listed (update lists i ((lists i).erase c)) l)
    (hsides : ∀ b, IsBlock (update area a none) b →
      (s'.tiles (update area a none)).sides b = ((s.tiles area).joined l a).sides b)
    (hreal : ∀ b, IsBlock (update area a none) b → b ≠ l →
      (s'.tag b).realSize = (s.tag b).realSize)
    (hcomplete : s'.completePages = s.completePages) :
    LibPolicy (update area a none) (update lists i ((lists i).erase c)) s' := by
  -- a block that is free now is neither of the two
  have hfree : ∀ j b, b ∈ update lists i ((lists i).erase c) j → b ∈ lists j ∧ b ≠ l ∧
      ∃ B, area b = some B ∧ update area a none b = some B := by
    intro j b hb
    obtain ⟨B, hB⟩ := isBlock_area ((h'.shelved.member j b).mp hb).1
    obtain ⟨hba, -⟩ := isBlock_erased (isBlock_some hB)
    refine ⟨listed_of_erase hb, ?_, B, ?_, hB⟩
    · rintro rfl
      exact hout ⟨j, hb⟩
    · rw [update_of_ne hba] at hB
      exact hB
  have hsame : SameBins (update lists i ((lists i).erase c)) s s' := by
    refine ⟨fun j b hb => ?_, fun j b hb => ?_⟩
    · obtain ⟨-, hbl, B, -, hB'⟩ := hfree j b hb
      exact bin_congr (hreal b (isBlock_some hB') hbl)
    · obtain ⟨-, hbl, B, hB, hB'⟩ := hfree j b hb
      exact whole_congr h h' hB hB' (hreal b (isBlock_some hB') hbl)
  -- neither of the two was a span
  have hwhole : s.whole c ≠ true := by
    unfold LibState.whole
    rw [ne_eq, decide_eq_true_eq]
    rintro ⟨hleft, hright⟩
    rcases hca with rfl | rfl
    · rw [hright, linkOf_none.mpr rfl] at hn
      cases hn
    · have hback : linkOf (s.tag c).splitLeft = some l := (h.tiling.right l A _ hl hn).2.2
      rw [hleft, linkOf_none.mpr rfl] at hback
      cases hback
  have hcount := counted_erased hp hc hsame fun j => by
    rw [hcomplete, if_neg fun hn => hwhole hn.2, Int.sub_zero]
  refine ⟨fun j b hb => ?_, ?_, hcount.1, hcount.2⟩
  · rw [hsame.bin j b hb]
    exact hp.binned j b (hfree j b hb).1
  · refine coalesced_congr (coalesced_joined h.tiling hp.coalesced hl hn (fun b _ hb => ?_) hout)
      rfl fun b B hb => hsides b (isBlock_some hb)
    obtain ⟨j, hj⟩ := hb
    exact ⟨j, (hfree j b hj).1⟩

/-- A block in the hands of `free`. -/
structure Held (spans : Uptr → Option Nat) (blocks : Uptr → Option Usize) (A : Extent) (m : Mem)
    (w : ω) (area : Uptr → Option Extent) (lists : Nat → List Uptr) (s : LibState ω) (a : Uptr) :
    Prop where
  core : LibCore spans blocks (fun b => b = a) area lists s
  policy : LibPolicy area lists s
  area : area a = some A
  kept : BlocksKept blocks m s.mem
  pages : s.pages = w
  ready : s.initialized = true

variable {m : Mem} {w : ω}

theorem removeTag_rest (s : LibState ω) (a : Uptr) :
    (s.removeTag a).completePages = s.completePages ∧ (s.removeTag a).pages = s.pages ∧
      (s.removeTag a).initialized = s.initialized := by
  rw [LibState.removeTag_statics]
  split
  · exact ⟨rfl, rfl, rfl⟩
  · exact ⟨rfl, rfl, rfl⟩

theorem insertTag_rest (s : LibState ω) (a : Uptr) (j : Int) :
    (s.insertTag a j).completePages = s.completePages ∧ (s.insertTag a j).pages = s.pages ∧
      (s.insertTag a j).initialized = s.initialized := by
  rw [LibState.insertTag_statics]
  exact ⟨rfl, rfl, rfl⟩

theorem splitTag_rest (s : LibState ω) (a : Uptr) :
    (s.splitTag a).pages = s.pages ∧ (s.splitTag a).initialized = s.initialized := by
  obtain ⟨-, hpages, hready⟩ := insertTag_rest (s.cutTag a (newTag s a)) (newTag s a) (-1)
  have hstat := LibState.cutTag_statics (s := s) (a := a) (n := newTag s a)
  exact ⟨hpages.trans (congrArg LibStatics.pages hstat),
    hready.trans (congrArg LibStatics.initialized hstat)⟩

theorem joinTags_rest (s : LibState ω) (l a : Uptr) :
    (s.joinTags l a).completePages = s.completePages ∧ (s.joinTags l a).pages = s.pages ∧
      (s.joinTags l a).initialized = s.initialized := by
  rw [LibState.joinTags_statics]
  exact ⟨rfl, rfl, rfl⟩

/-- **One round of the first loop.** -/
theorem held_meltLeft (h : Held spans blocks A m w area lists s a)
    (hl : linkOf (s.tag a).splitLeft = some l) (hi : l ∈ lists i) :
    Held spans blocks A m w (update area a none) (update lists i ((lists i).erase l))
        ((s.joinTags l a).removeTag l) l ∧
      (((s.joinTags l a).removeTag l).tag l).splitLeft = (s.tag l).splitLeft := by
  have hleft := tiling_left h.core.tiling h.area hl
  have hlA : area l = some A := hleft.1
  have hn : linkOf (s.tag l).splitRight = some a := hleft.2.1
  have hla : l ≠ a := tiling_left_ne h.core.tiling h.area hl
  have hlU : ¬ Used area s l := fun hu => used_unlisted h.core.shelved hu i hi
  have hD := core_headers h.core
  have hjoin := LibState.joinable h.core.tiling hlA hn
  obtain ⟨hcore₁, hkept₁⟩ := core_join h.core rfl hlA hn fun hu => absurd hu hlU
  obtain ⟨hcore₂, hkept₂⟩ := core_remove hcore₁ hi
  have hD₁ := core_headers hcore₁
  have hrem := LibState.removable hD₁ hcore₁.shelved hi
  have hf₁ := fun b (hb : IsBlock area b) => joinTags_fields hD hjoin hb
  have hs₁ := fun b (hb : IsBlock area b) => LibState.joinTags_sides hD hjoin hb
  have hf₂ := fun b (hb : IsBlock (update area a none) b) => removeTag_fields hD₁ hrem hb
  have hrest₁ := joinTags_rest s l a
  have hrest₂ := removeTag_rest (s.joinTags l a) l
  have hlA₂ : update area a none l = some A := (update_of_ne hla ..).trans hlA
  have hsplit₁ : ((s.joinTags l a).tag l).splitLeft = (s.tag l).splitLeft := by
    rw [LibState.joinTags_tag hD hjoin (isBlock_some hlA), if_pos rfl]
  have hcore₃ : LibCore spans blocks (fun b => b = l) (update area a none)
      (update lists i ((lists i).erase l)) ((s.joinTags l a).removeTag l) :=
    core_taken hcore₂ fun b => ⟨fun hb => .inl hb, fun hb => hb.elim id fun hn => absurd hn.2 hn.1⟩
  generalize s.joinTags l a = s₁ at *
  generalize s₁.removeTag l = s₂ at *
  refine ⟨⟨hcore₃, ?_, hlA₂, kept_trans h.kept (kept_trans hkept₁ hkept₂),
    (hrest₂.2.1.trans hrest₁.2.1).trans h.pages,
    (hrest₂.2.2.trans hrest₁.2.2).trans h.ready⟩, ?_⟩
  · refine policy_joined h.core h.policy hlA hn hi (.inl rfl) hcore₃
      (used_not_listed hcore₃ (hcore₃.taken l rfl)) (fun b hb => ?_) (fun b hb hbl => ?_)
      (hrest₂.1.trans hrest₁.1)
    · exact (sides_eq (hf₂ b hb).2.2.2.1 (hf₂ b hb).2.2.2.2.1).trans
        (hs₁ b (isBlock_erased hb).2)
    · exact (hf₂ b hb).2.2.1.trans ((hf₁ b (isBlock_erased hb).2).2.2.1 hbl)
  · exact (hf₂ l (isBlock_some hlA₂)).2.2.2.1.trans hsplit₁

/-- **One round of the second loop.** -/
theorem held_absorbRight (h : Held spans blocks A m w area lists s a)
    (hr : linkOf (s.tag a).splitRight = some l) (hi : l ∈ lists i) :
    Held spans blocks A m w (update area l none) (update lists i ((lists i).erase l))
        ((s.removeTag l).joinTags a l) a ∧
      (((s.removeTag l).joinTags a l).tag a).splitLeft = (s.tag a).splitLeft ∧
      (((s.removeTag l).joinTags a l).tag a).splitRight = (s.tag l).splitRight := by
  have hlA : area l = some A := (h.core.tiling.right a A l h.area hr).1
  have hal : a ≠ l := tiling_right_ne h.core.tiling h.area hr
  have hD := core_headers h.core
  have hrem := LibState.removable hD h.core.shelved hi
  have hf₁ := fun b (hb : IsBlock area b) => removeTag_fields hD hrem hb
  obtain ⟨hcore₁, hkept₁⟩ := core_remove h.core hi
  have hrest₁ := removeTag_rest s l
  have hn : linkOf ((s.removeTag l).tag a).splitRight = some l := by
    rw [(hf₁ a (isBlock_some h.area)).2.2.2.2.1]
    exact hr
  have hjoin := LibState.joinable hcore₁.tiling h.area hn
  obtain ⟨hcore₂, hkept₂⟩ := core_join hcore₁ (.inl rfl) h.area hn fun _ => .inr rfl
  have hrest₂ := joinTags_rest (s.removeTag l) a l
  have hf₂ := fun b (hb : IsBlock area b) => joinTags_fields hD hjoin hb
  have hs₂ := fun b (hb : IsBlock area b) => LibState.joinTags_sides hD hjoin hb
  have ha₂ := LibState.joinTags_tag hD hjoin (isBlock_some h.area)
  rw [if_pos rfl] at ha₂
  have hcore₃ : LibCore spans blocks (fun b => b = a) (update area l none)
      (update lists i ((lists i).erase l)) ((s.removeTag l).joinTags a l) :=
    core_taken hcore₂ fun b => ⟨fun hb => ⟨fun hbl => hal (hb.symm.trans hbl), .inr hb⟩,
      fun hb => hb.2.resolve_left hb.1⟩
  have hsides₁ : ∀ b, IsBlock area b → ((s.removeTag l).tiles area).sides b =
      (s.tiles area).sides b := fun b hb => sides_eq (hf₁ b hb).2.2.2.1 (hf₁ b hb).2.2.2.2.1
  have hright₁ : ((s.removeTag l).tag l).splitRight = (s.tag l).splitRight :=
    (hf₁ l (isBlock_some hlA)).2.2.2.2.1
  have hleft₁ : ((s.removeTag l).tag a).splitLeft = (s.tag a).splitLeft :=
    (hf₁ a (isBlock_some h.area)).2.2.2.1
  generalize s.removeTag l = s₁ at *
  generalize s₁.joinTags a l = s₂ at *
  refine ⟨⟨hcore₃, ?_, (update_of_ne hal ..).trans h.area,
    kept_trans h.kept (kept_trans hkept₁ hkept₂), (hrest₂.2.1.trans hrest₁.2.1).trans h.pages,
    (hrest₂.2.2.trans hrest₁.2.2).trans h.ready⟩, ?_, ?_⟩
  · refine policy_joined h.core h.policy h.area hr hi (.inr rfl) hcore₃
      (used_not_listed hcore₃ (hcore₃.taken a rfl)) (fun b hb => ?_) (fun b hb hba => ?_)
      (hrest₂.1.trans hrest₁.1)
    · refine (hs₂ b (isBlock_erased hb).2).trans ?_
      show Links.mk (if ((s₁.tiles area).sides l).next = some b then some a
          else ((s₁.tiles area).sides b).prev) (if b = a then ((s₁.tiles area).sides l).next
          else ((s₁.tiles area).sides b).next) = _
      rw [hsides₁ l (isBlock_some hlA), hsides₁ b (isBlock_erased hb).2]
      rfl
    · exact ((hf₂ b (isBlock_erased hb).2).2.2.1 hba).trans (hf₁ b (isBlock_erased hb).2).2.2.1
  · rw [ha₂]
    exact hleft₁
  · rw [ha₂]
    exact hright₁

theorem exists_passes : ∃ n, TAGS = n + 2 := ⟨TAGS - 2, by unfold TAGS; omega⟩

/-- The free block before `a`, if there is one. -/
theorem left_cases (h : LibCore spans blocks X area lists s) (hA : area a = some A) :
    (∃ l i, linkOf (s.tag a).splitLeft = some l ∧ l ∈ lists i ∧
        ((s.tag a).splitLeft ≠ 0 ∧ 0 ≤ (s.tag (s.tag a).splitLeft).index.toInt)) ∨
      (∀ b, linkOf (s.tag a).splitLeft = some b → ¬ Listed lists b) ∧
        ¬ ((s.tag a).splitLeft ≠ 0 ∧ 0 ≤ (s.tag (s.tag a).splitLeft).index.toInt) := by
  by_cases hc : (s.tag a).splitLeft ≠ 0 ∧ 0 ≤ (s.tag (s.tag a).splitLeft).index.toInt
  · have hl := linkOf_self hc.1
    have hblock : IsBlock area (s.tag a).splitLeft := isBlock_some (h.tiling.left a A _ hA hl).1
    obtain ⟨i, hi⟩ := (listed_iff h hblock).mpr hc.2
    exact .inl ⟨_, i, hl, hi, hc⟩
  · refine .inr ⟨fun b hb hlisted => hc ?_, hc⟩
    have hblock : IsBlock area b := isBlock_some (h.tiling.left a A b hA hb).1
    obtain ⟨rfl, hne⟩ := linkOf_some.mp hb
    exact ⟨hne, (listed_iff h hblock).mp hlisted⟩

theorem right_cases (h : LibCore spans blocks X area lists s) (hA : area a = some A) :
    (∃ r i, linkOf (s.tag a).splitRight = some r ∧ r ∈ lists i ∧
        ((s.tag a).splitRight ≠ 0 ∧ 0 ≤ (s.tag (s.tag a).splitRight).index.toInt)) ∨
      (∀ b, linkOf (s.tag a).splitRight = some b → ¬ Listed lists b) ∧
        ¬ ((s.tag a).splitRight ≠ 0 ∧ 0 ≤ (s.tag (s.tag a).splitRight).index.toInt) := by
  by_cases hc : (s.tag a).splitRight ≠ 0 ∧ 0 ≤ (s.tag (s.tag a).splitRight).index.toInt
  · have hr := linkOf_self hc.1
    have hblock : IsBlock area (s.tag a).splitRight := isBlock_some (h.tiling.right a A _ hA hr).1
    obtain ⟨i, hi⟩ := (listed_iff h hblock).mpr hc.2
    exact .inl ⟨_, i, hr, hi, hc⟩
  · refine .inr ⟨fun b hb hlisted => hc ?_, hc⟩
    have hblock : IsBlock area b := isBlock_some (h.tiling.right a A b hA hb).1
    obtain ⟨rfl, hne⟩ := linkOf_some.mp hb
    exact ⟨hne, (listed_iff h hblock).mp hlisted⟩

/-- **The first loop** makes one round at most: no free block is before a free one. -/
theorem held_meltLefts (h : Held spans blocks A m w area lists s a) :
    ∃ a' s' area' lists', LibState.meltLefts TAGS a s = (a', s') ∧
      Held spans blocks A m w area' lists' s' a' ∧
      ∀ b, linkOf (s'.tag a').splitLeft = some b → ¬ Listed lists' b := by
  obtain ⟨n, hn⟩ := exists_passes
  rw [hn]
  rcases left_cases h.core h.area with ⟨l, i, hl, hi, hc⟩ | ⟨hnone, hc⟩
  · obtain ⟨hheld, hsplit⟩ := held_meltLeft h hl hi
    obtain ⟨hs, -⟩ := linkOf_some.mp hl
    have halone := (alone_of_listed h.core h.policy ⟨i, hi⟩).left
    have hround : LibState.meltLefts (n + 2) a s =
        LibState.meltLefts (n + 1) l ((s.joinTags l a).removeTag l) := by
      conv_lhs => unfold LibState.meltLefts
      rw [if_pos hc, LibState.meltLeft_eq, hs]
    have hnone : ∀ b, linkOf (((s.joinTags l a).removeTag l).tag l).splitLeft = some b →
        ¬ Listed (update lists i ((lists i).erase l)) b := by
      intro b hb hlisted
      rw [hsplit] at hb
      obtain ⟨j, hj⟩ := hlisted
      exact halone b hb ⟨j, listed_of_erase hj⟩
    refine ⟨l, _, _, _, ?_, hheld, hnone⟩
    rw [hround]
    rcases left_cases hheld.core hheld.area with ⟨b, j, hb, hj, -⟩ | ⟨-, hc'⟩
    · exact absurd ⟨j, hj⟩ (hnone b hb)
    · unfold LibState.meltLefts
      rw [if_neg hc']
  · refine ⟨a, s, area, lists, ?_, h, hnone⟩
    unfold LibState.meltLefts
    rw [if_neg hc]

/-- **The second loop** makes one round at most. -/
theorem held_absorbRights (h : Held spans blocks A m w area lists s a)
    (hleft : ∀ b, linkOf (s.tag a).splitLeft = some b → ¬ Listed lists b) :
    ∃ area' lists', Held spans blocks A m w area' lists' (LibState.absorbRights TAGS a s) a ∧
      Alone lists' (LibState.absorbRights TAGS a s) a := by
  obtain ⟨n, hn⟩ := exists_passes
  rw [hn]
  rcases right_cases h.core h.area with ⟨r, i, hr, hi, hc⟩ | ⟨hnone, hc⟩
  · obtain ⟨hheld, hsplit, hsplit'⟩ := held_absorbRight h hr hi
    obtain ⟨hs, -⟩ := linkOf_some.mp hr
    have halone := (alone_of_listed h.core h.policy ⟨i, hi⟩).right
    have hround : LibState.absorbRights (n + 2) a s =
        LibState.absorbRights (n + 1) a ((s.removeTag r).joinTags a r) := by
      conv_lhs => unfold LibState.absorbRights
      rw [if_pos hc, LibState.absorbRight_eq, hs]
    have hfewer : ∀ b, Listed (update lists i ((lists i).erase r)) b → Listed lists b :=
      fun b ⟨j, hj⟩ => ⟨j, listed_of_erase hj⟩
    have halone' : Alone (update lists i ((lists i).erase r)) ((s.removeTag r).joinTags a r) a := by
      refine ⟨fun b hb hlisted => ?_, fun b hb hlisted => ?_⟩
      · rw [hsplit] at hb
        exact hleft b hb (hfewer b hlisted)
      · rw [hsplit'] at hb
        exact halone b hb (hfewer b hlisted)
    have hdone : LibState.absorbRights (n + 1) a ((s.removeTag r).joinTags a r) =
        (s.removeTag r).joinTags a r := by
      rcases right_cases hheld.core hheld.area with ⟨b, j, hb, hj, -⟩ | ⟨-, hc'⟩
      · exact absurd ⟨j, hj⟩ (halone'.right b hb)
      · unfold LibState.absorbRights
        rw [if_neg hc']
    rw [hround, hdone]
    exact ⟨_, _, hheld, halone'⟩
  · have hdone : LibState.absorbRights (n + 2) a s = s := by
      unfold LibState.absorbRights
      rw [if_neg hc]
    rw [hdone]
    exact ⟨area, lists, h, hleft, hnone⟩

/-! ## 5. A block goes back -/

/-- **The allocator between calls.** -/
structure LibInv (spans : Uptr → Option Nat) (blocks : Uptr → Option Usize)
    (area : Uptr → Option Extent) (lists : Nat → List Uptr) (s : LibState ω) : Prop where
  core : LibCore spans blocks (fun _ => False) area lists s
  policy : LibPolicy area lists s
  /-- without tables there are no pages yet -/
  fresh : s.initialized = false → ∀ p, spans p = none

theorem policy_congr (hp : LibPolicy area lists s)
    (htag : ∀ i a, a ∈ lists i → (s'.tag a).realSize = (s.tag a).realSize ∧
      s'.whole a = s.whole a)
    (hcoalesced : Coalesced (s'.tiles area') (Listed lists))
    (hcomplete : s'.completePages = s.completePages) : LibPolicy area' lists s' := by
  refine ⟨fun i a ha => ?_, hcoalesced, fun i => ?_, fun i => ?_⟩
  · rw [bin_congr (htag i a ha).1]
    exact hp.binned i a ha
  · have hcount : (lists i).countP s'.whole = (lists i).countP s.whole :=
      List.countP_congr fun a ha => by rw [(htag i a ha).2]
    rw [hcomplete, hp.counted i, hcount]
  · rw [hcomplete]
    exact hp.kept i

theorem whole_tag (ha : s'.tag a = s.tag a) : s'.whole a = s.whole a := by
  unfold LibState.whole
  rw [ha]

theorem sides_tag (ha : s'.tag a = s.tag a) : (s'.tiles area).sides a = (s.tiles area).sides a :=
  sides_eq (by rw [ha]) (by rw [ha])

/-- The tags of the blocks are the same between two calls. -/
theorem inv_tags (h : LibInv spans blocks area lists s)
    (htag : ∀ b, IsBlock area b → s'.tag b = s.tag b) (hfree : s'.freePages = s.freePages)
    (hcomplete : s'.completePages = s.completePages)
    (hready : s'.initialized = false → s.initialized = false) :
    LibInv spans blocks area lists s' := by
  have hlisted : ∀ i b, b ∈ lists i → s'.tag b = s.tag b := fun i b hb =>
    htag b ((h.core.shelved.member i b).mp hb).1
  refine ⟨core_tags h.core htag hfree, policy_congr h.policy
    (fun i b hb => ⟨by rw [hlisted i b hb], whole_tag (hlisted i b hb)⟩) ?_ hcomplete,
    fun hn => h.fresh (hready hn)⟩
  exact coalesced_congr h.policy.coalesced rfl fun b B hb => sides_tag (htag b (isBlock_some hb))

/-- **The last call of `free`**: the block is on the list of its size. -/
theorem inv_insertTag (s₀ : LibState ω) (h : Held spans blocks A m w area lists s a)
    (halone : Alone lists s a) (hmem : s₀.mem = s.mem) (hfree : s₀.freePages = s.freePages)
    (hpages : s₀.pages = s.pages) (hready : s₀.initialized = s.initialized)
    (hcomplete : ∀ j, s₀.completePages j =
      s.completePages j + if j = s.bin a ∧ s.whole a = true then 1 else 0)
    (hroom : s.whole a = true → s.completePages (s.bin a) ≠ MAXCOMPLETE) :
    LibInv spans blocks area (update lists (s.bin a) (a :: lists (s.bin a)))
        (s₀.insertTag a (s.bin a)) ∧
      BlocksKept blocks m (s₀.insertTag a (s.bin a)).mem ∧
      (s₀.insertTag a (s.bin a)).pages = w := by
  have hcore₀ := core_statics h.core hmem hfree
  have htag₀ : ∀ b, s₀.tag b = s.tag b := fun b => LibState.tag_congr hmem
  have hr : s₀.realIndex a (s.bin a : Int) = s.bin a := by
    unfold LibState.realIndex
    rw [if_neg (Int.not_lt.mpr (Int.natCast_nonneg _))]
    rfl
  have hlt : s.bin a < 2 ^ 31 := Nat.lt_trans (binOf_bounds _).2.1 (by decide)
  obtain ⟨hcore₁, hkept₁⟩ := core_insert hcore₀ rfl hr hlt
  have hua := hcore₀.taken a rfl
  have hD := core_headers hcore₀
  obtain ⟨hh, hne⟩ := head_block hcore₀.shelved hua (s.bin a)
  have hf₁ := fun b (hb : IsBlock area b) =>
    insertTag_fields hD hua.1 hr hh (hne (hD.nonzero a hua.1)) hb
  have hrest := insertTag_rest s₀ a (s.bin a)
  have hcore₂ : LibCore spans blocks (fun _ => False) area
      (update lists (s.bin a) (a :: lists (s.bin a))) (s₀.insertTag a (s.bin a)) :=
    core_taken hcore₁ fun b => ⟨False.elim, fun hn => hn.1 hn.2⟩
  generalize s₀.insertTag a (s.bin a) = s₁ at *
  obtain ⟨hcomplete₁, hpages₁, hready₁⟩ := hrest
  have hsize : ∀ b, IsBlock area b → (s₁.tag b).realSize = (s.tag b).realSize := by
    intro b hb
    rw [(hf₁ b hb).2.2.1, htag₀]
  have hwhole : ∀ b, IsBlock area b → s₁.whole b = s.whole b := by
    intro b hb
    obtain ⟨B, hB⟩ := isBlock_area hb
    exact whole_congr h.core hcore₂ hB hB (hsize b hb)
  have hold : ∀ j b, b ∈ lists j → IsBlock area b ∧ b ≠ a := by
    intro j b hb
    refine ⟨((h.core.shelved.member j b).mp hb).1, ?_⟩
    rintro rfl
    exact used_unlisted h.core.shelved (h.core.taken b rfl) j hb
  have hcases : ∀ j b, b ∈ update lists (s.bin a) (a :: lists (s.bin a)) j →
      b = a ∧ j = s.bin a ∨ b ∈ lists j := by
    intro j b hb
    by_cases hj : j = s.bin a
    · rw [hj, update_self] at hb
      rcases List.mem_cons.mp hb with rfl | hb
      · exact .inl ⟨rfl, hj⟩
      · exact .inr (hj ▸ hb)
    · rw [update_of_ne hj] at hb
      exact .inr hb
  have hlisted : ∀ b, b ≠ a → Listed (update lists (s.bin a) (a :: lists (s.bin a))) b →
      Listed lists b := by
    rintro b hba ⟨j, hj⟩
    exact ⟨j, (hcases j b hj).resolve_left fun hn => hba hn.1⟩
  have hkept₂ : BlocksKept blocks s.mem s₁.mem := hmem ▸ hkept₁
  refine ⟨⟨hcore₂, ⟨fun j b hb => ?_, ?_, fun j => ?_, fun j => ?_⟩, fun hn => ?_⟩,
    kept_trans h.kept hkept₂, ?_⟩
  · rcases hcases j b hb with ⟨rfl, rfl⟩ | hb
    · exact bin_congr (hsize b hua.1)
    · rw [bin_congr (hsize b (hold j b hb).1)]
      exact h.policy.binned j b hb
  · refine coalesced_congr (coalesced_freed h.core.tiling h.policy.coalesced hlisted
      (fun b hb hl => ?_) fun b hb hl => ?_) rfl fun b B hb => ?_
    · exact halone.left b hb (hlisted b (tiling_left_ne h.core.tiling h.area hb) hl)
    · exact halone.right b hb (hlisted b (tiling_right_ne h.core.tiling h.area hb).symm hl)
    · obtain ⟨-, -, -, hl, hr, -⟩ := hf₁ b (isBlock_some hb)
      exact sides_eq (by rw [hl, htag₀]) (by rw [hr, htag₀])
  · have hcount : (lists j).countP s₁.whole = (lists j).countP s.whole :=
      List.countP_congr fun b hb => by rw [hwhole b (hold j b hb).1]
    rw [hcomplete₁, hcomplete, h.policy.counted]
    by_cases hj : j = s.bin a
    · rw [hj, update_self, List.countP_cons, ← hj, hcount, hwhole a hua.1]
      by_cases hw : s.whole a = true
      · rw [if_pos ⟨rfl, hw⟩, if_pos hw]
        rfl
      · rw [if_neg fun hn => hw hn.2, if_neg hw]
        rfl
    · rw [update_of_ne hj, if_neg fun hn => hj hn.1, hcount, Int.add_zero]
  · have hle := h.policy.kept j
    rw [hcomplete₁, hcomplete]
    split
    · rename_i hn
      have hlt := hroom hn.2
      rw [← hn.1] at hlt
      omega
    · omega
  · rw [hready₁, hready, h.ready] at hn
    cases hn
  · exact (hpages₁.trans hpages).trans h.pages

/-- **A span goes back.** -/
theorem inv_close (s' : LibState ω) (h : Held spans blocks A m w area lists s a)
    (hleft : (s.tag a).splitLeft = 0) (hright : (s.tag a).splitRight = 0)
    (hm : SpansKept (update spans a none) s.mem s'.mem) (hfree : s'.freePages = s.freePages)
    (hcomplete : s'.completePages = s.completePages) (hready : s'.initialized = s.initialized) :
    LibInv (update spans a none) blocks (update area a none) lists s' ∧
      BlocksKept blocks m s'.mem := by
  obtain ⟨hcore, hkept, hsame⟩ := core_close h.core rfl h.area hleft hright hm hfree
  have hcore' : LibCore (update spans a none) blocks (fun _ => False) (update area a none) lists
      s' := core_taken hcore fun b => ⟨False.elim, fun hn => hn.1 hn.2⟩
  have htag : ∀ i b, b ∈ lists i → s'.tag b = s.tag b := by
    intro i b hb
    refine hsame b ((h.core.shelved.member i b).mp hb).1 ?_
    rintro rfl
    exact used_unlisted h.core.shelved (h.core.taken b rfl) i hb
  refine ⟨⟨hcore', policy_congr h.policy (fun i b hb => ⟨by rw [htag i b hb],
    whole_tag (htag i b hb)⟩) ?_ hcomplete, fun hn => ?_⟩, kept_trans h.kept hkept⟩
  · refine coalesced_congr (coalesced_closed h.policy.coalesced (a := a)) rfl fun b B hb => ?_
    have hb : update area a none b = some B := hb
    obtain ⟨hba, hbb⟩ := isBlock_erased (isBlock_some hb)
    exact sides_tag (hsame b hbb hba)
  · rw [hready, h.ready] at hn
    cases hn

/-! ## 6. `free` -/

theorem pagesFor_toNat (bytes : U32) :
    (pagesFor bytes).toNat = max 16 ((bytes.toNat + 4095) / 4096) := by
  have hlt := bytes.isLt
  have hdiv : (bytes / LIBALLOC_PAGE_SIZE).toNat = bytes.toNat / 4096 := BitVec.toNat_udiv
  have hmod : (bytes % LIBALLOC_PAGE_SIZE).toNat = bytes.toNat % 4096 := BitVec.toNat_umod
  have h16 : LIBALLOC_PAGE_COUNT.toNat = 16 := rfl
  have h1 : (1 : U32).toNat = 1 := rfl
  have hzero : bytes % LIBALLOC_PAGE_SIZE ≠ 0 ↔ bytes.toNat % 4096 ≠ 0 := by
    rw [← hmod]
    exact not_congr ⟨fun h => by rw [h]; rfl, fun h => BitVec.eq_of_toNat_eq h⟩
  unfold pagesFor
  dsimp only
  by_cases hr : bytes.toNat % 4096 ≠ 0
  · rw [if_pos (hzero.mpr hr)]
    have hsum : (bytes / LIBALLOC_PAGE_SIZE + 1).toNat = bytes.toNat / 4096 + 1 := by
      rw [BitVec.toNat_add, hdiv, h1, Nat.mod_eq_of_lt (by omega)]
    split
    · rename_i hless
      rw [BitVec.lt_def, hsum, h16] at hless
      rw [h16]
      omega
    · rename_i hless
      rw [BitVec.lt_def, hsum, h16] at hless
      rw [hsum]
      omega
  · rw [if_neg (hzero.not.mpr hr)]
    split
    · rename_i hless
      rw [BitVec.lt_def, hdiv, h16] at hless
      rw [h16]
      omega
    · rename_i hless
      rw [BitVec.lt_def, hdiv, h16] at hless
      rw [hdiv]
      omega

theorem toInt_pages {x : U32} {k : Nat} (h : x.toNat = k) (hk : k < 2 ^ 20) : x.toInt = k := by
  rw [BitVec.toInt_eq_toNat_of_lt (by omega), h]

/-- What the allocator asks of its pages. `R` says which spans are handed out, and `E` how a call
    for pages may stop. -/
structure PageSource.Meets (src : PageSource ω) (R : (Uptr → Option Nat) → ω → Prop)
    (E : Fault → Prop) : Prop where
  alloc : ∀ spans m w (n : Nat), R spans w → 16 ≤ n → 4096 * n < 2 ^ 32 →
    ends (src.alloc n) (m, w) (fun p t => SpansKept spans m t.1 ∧
      (p = 0 ∧ R spans t.2 ∨ p ≠ 0 ∧ p.toNat % 4096 = 0 ∧ p.toNat + 4096 * n < 2 ^ 64 ∧
        spans p = none ∧
        (∀ q j, spans q = some j → Clear p.toNat (4096 * n) q.toNat (4096 * j)) ∧
        R (update spans p (some n)) t.2)) E
  free : ∀ spans m w p (n : Nat), R spans w → spans p = some n →
    wp (src.free p n) (m, w) fun _ t => SpansKept (update spans p none) m t.1 ∧
      R (update spans p none) t.2

variable {src : PageSource ω} {R : (Uptr → Option Nat) → ω → Prop} {E : Fault → Prop}

/-- **`free`** of a block a caller has. -/
theorem wp_libFree (hsrc : src.Meets R E) (h : LibInv spans blocks area lists s)
    (hR : R spans s.pages) (hp : blocks p = some n) :
    wp (libFree src p) s fun _ s' => ∃ spans' area' lists',
      LibInv spans' (update blocks p none) area' lists' s' ∧ R spans' s'.pages ∧
      BlocksKept (update blocks p none) s.mem s'.mem := by
  obtain ⟨a, rfl, hua, hcore⟩ := core_revoke h.core hp
  obtain ⟨A, hA⟩ := isBlock_area hua.1
  have hpos := toNat_payload h.core hua.1
  have hnull : a + SIZEOF_BOUNDARY_TAG ≠ 0 := by
    intro h0
    rw [h0] at hpos
    have hz : (0 : Uptr).toNat = 0 := rfl
    omega
  have hready : s.initialized = true := by
    obtain ⟨q, k, hq, -⟩ := h.core.span a A hA
    cases hi : s.initialized with
    | true => rfl
    | false =>
        rw [h.fresh hi q] at hq
        cases hq
  have hheld : Held spans (update blocks (a + SIZEOF_BOUNDARY_TAG) none) A s.mem s.pages area lists
      s a :=
    ⟨core_taken hcore fun b => ⟨.inl, fun hb => hb.elim id False.elim⟩, h.policy, hA,
      fun _ _ _ _ _ => rfl, rfl, hready⟩
  obtain ⟨a', s₁, area₁, lists₁, hmelt, hheld₁, hleft⟩ := held_meltLefts hheld
  obtain ⟨area₂, lists₂, hheld₂, halone⟩ := held_absorbRights hheld₁ hleft
  have htagaddr : a + SIZEOF_BOUNDARY_TAG - SIZEOF_BOUNDARY_TAG = a :=
    BitVec.add_sub_cancel a SIZEOF_BOUNDARY_TAG
  unfold libFree
  rw [if_neg hnull, wp_bind, wp_get, htagaddr,
    if_neg (not_not_intro (h.core.block a A hA).magic), hmelt]
  dsimp only
  generalize LibState.absorbRights TAGS a' s₁ = s₂ at *
  have hbin : binOf ((s₂.tag a').realSize - SIZEOF_BOUNDARY_TAG.setWidth 32) = s₂.bin a' := rfl
  have hwhole : s₂.whole a' = true ↔ (s₂.tag a').splitLeft = 0 ∧ (s₂.tag a').splitRight = 0 :=
    decide_eq_true_iff
  rw [hbin]
  by_cases hw : (s₂.tag a').splitLeft = 0 ∧ (s₂.tag a').splitRight = 0
  · rw [if_pos hw]
    by_cases hmax : s₂.completePages (s₂.bin a') = MAXCOMPLETE
    · -- too many spans are kept already
      obtain ⟨k, hk, rfl, hsize⟩ := whole_span hheld₂.core hheld₂.area hw.1 hw.2
      obtain ⟨-, hleast, hmost, -⟩ := hheld₂.core.bound a' k hk
      have hcount : (pagesFor (s₂.tag a').realSize).toInt = k := by
        refine toInt_pages ?_ (by omega)
        rw [pagesFor_toNat, hsize]
        omega
      rw [if_pos hmax, wp_bind, wp_set, wp_bind, hcount]
      unfold onSource
      rw [wp_zoom]
      have hR₂ : R spans s₂.pages := hheld₂.pages ▸ hR
      refine wp_mono (hsrc.free spans s₂.mem s₂.pages a' k hR₂ hk) fun rc t ht => ?_
      rw [wp_pure]
      obtain ⟨hm, hRt⟩ := ht
      obtain ⟨hinv, hkept⟩ := inv_close { s₂ with mem := t.1, pages := t.2 } hheld₂ hw.1 hw.2
        hm rfl rfl rfl
      exact ⟨_, _, _, hinv, hRt, hkept⟩
    · rw [if_neg hmax, wp_set]
      have hcomplete : ∀ j, (s₂.addComplete (s₂.bin a') 1).completePages j =
          s₂.completePages j + if j = s₂.bin a' ∧ s₂.whole a' = true then 1 else 0 := by
        intro j
        show update s₂.completePages (s₂.bin a') (s₂.completePages (s₂.bin a') + 1) j = _
        by_cases hj : j = s₂.bin a'
        · rw [hj, update_self, if_pos ⟨rfl, hwhole.mpr hw⟩]
        · rw [update_of_ne hj, if_neg fun hn => hj hn.1, Int.add_zero]
      obtain ⟨hinv, hkept, hpages⟩ := inv_insertTag (s₂.addComplete (s₂.bin a') 1) hheld₂
        halone rfl rfl rfl rfl hcomplete fun _ => hmax
      exact ⟨_, _, _, hinv, hpages ▸ hR, hkept⟩
  · rw [if_neg hw, wp_set]
    obtain ⟨hinv, hkept, hpages⟩ := inv_insertTag s₂ hheld₂ halone rfl rfl rfl rfl
      (fun j => by rw [if_neg fun hn => hw (hwhole.mp hn.2), Int.add_zero])
      fun hn => absurd (hwhole.mp hn) hw
    exact ⟨_, _, _, hinv, hpages ▸ hR, hkept⟩

/-! ## 7. The excess of a block -/

/-- The remainder of `malloc`, where it is a block. -/
theorem remainder_room {x : U32} {size : Usize}
    (hfits : 48 + size.toNat ≤ x.toNat)
    (hc : 0 < ((x.setWidth 64 - size - SIZEOF_BOUNDARY_TAG * 2).setWidth 32 : U32).toInt) :
    96 + size.toNat ≤ x.toNat := by
  have hx := x.isLt
  have hwide : (x.setWidth 64 : U64).toNat = x.toNat := by
    rw [BitVec.toNat_setWidth, Nat.mod_eq_of_lt (by omega)]
  have h96 : (SIZEOF_BOUNDARY_TAG * 2 : Usize).toNat = 96 := rfl
  have hrest : (x.setWidth 64 - size - SIZEOF_BOUNDARY_TAG * 2 : U64).toNat =
      (x.toNat - size.toNat + (2 ^ 64 - 96)) % 2 ^ 64 := by
    rw [BitVec.toNat_sub, h96, BitVec.toNat_sub_of_le (by rw [BitVec.le_def, hwide]; omega), hwide,
      Nat.add_comm]
  have hnat : ((x.setWidth 64 - size - SIZEOF_BOUNDARY_TAG * 2).setWidth 32 : U32).toNat =
      (x.toNat - size.toNat + (2 ^ 64 - 96)) % 2 ^ 64 % 2 ^ 32 := by
    rw [BitVec.toNat_setWidth, hrest]
  rw [BitVec.toInt_eq_toNat_cond, hnat] at hc
  by_contra hlow
  -- a negative remainder has its highest bit set
  have hneg : (x.toNat - size.toNat + (2 ^ 64 - 96)) % 2 ^ 64 % 2 ^ 32 =
      x.toNat - size.toNat + 2 ^ 32 - 96 := by omega
  rw [hneg] at hc
  split at hc
  · omega
  · omega

/-- **`malloc` keeps of a block what it needs**; a rest that is large enough is a free block. -/
theorem held_trimTag {size : Usize} (h : Held spans blocks A m w area lists s a)
    (halone : Alone lists s a) (hsize : size.toNat < 2 ^ 32) (hmod : size.toNat % 8 = 0)
    (hfits : 48 + size.toNat ≤ (s.tag a).realSize.toNat) :
    ∃ area' lists', Held spans blocks A m w area' lists' (s.trimTag a size) a ∧
      ((s.trimTag a size).tag a).size.toNat = size.toNat ∧
      48 + size.toNat ≤ ((s.trimTag a size).tag a).realSize.toNat := by
  obtain ⟨hcore₁, hkept₁⟩ := core_size h.core rfl (size.setWidth 32)
  have hD := core_headers h.core
  have hua := h.core.taken a rfl
  have htag₁ := fun b (hb : IsBlock area b) => LibState.tag_modTag (s := s)
    (f := fun t => { t with size := size.setWidth 32 }) hD hua.1 hb
  have hstat₁ : (s.modTag a fun t => { t with size := size.setWidth 32 }).toLibStatics =
      s.toLibStatics := rfl
  unfold LibState.trimTag
  dsimp only
  generalize (s.modTag a fun t => { t with size := size.setWidth 32 }) = s₁ at *
  have ha₁ := htag₁ a hua.1
  rw [if_pos rfl] at ha₁
  have hlow : ((size.setWidth 32 : U32)).toNat = size.toNat := by
    rw [BitVec.toNat_setWidth, Nat.mod_eq_of_lt hsize]
  have hsize₁ : (s₁.tag a).size.toNat = size.toNat := by rw [ha₁]; exact hlow
  have hreal₁ : (s₁.tag a).realSize = (s.tag a).realSize := by rw [ha₁]
  have hlinks₁ : ∀ b, IsBlock area b → (s₁.tag b).splitLeft = (s.tag b).splitLeft ∧
      (s₁.tag b).splitRight = (s.tag b).splitRight ∧
      (s₁.tag b).realSize = (s.tag b).realSize := by
    intro b hb
    rw [htag₁ b hb]
    split
    · rename_i hba
      rw [hba]
      exact ⟨rfl, rfl, rfl⟩
    · exact ⟨rfl, rfl, rfl⟩
  have hpolicy₁ : LibPolicy area lists s₁ := by
    refine policy_congr h.policy (fun i b hb => ?_) ?_ (congrArg LibStatics.completePages hstat₁)
    · obtain ⟨hl, hr, hz⟩ := hlinks₁ b ((h.core.shelved.member i b).mp hb).1
      refine ⟨hz, ?_⟩
      unfold LibState.whole
      rw [hl, hr]
    · refine coalesced_congr h.policy.coalesced rfl fun b B hb => ?_
      obtain ⟨hl, hr, -⟩ := hlinks₁ b (isBlock_some hb)
      exact sides_eq hl hr
  have hheld₁ : Held spans blocks A m w area lists s₁ a :=
    ⟨hcore₁, hpolicy₁, h.area, kept_trans h.kept hkept₁,
      (congrArg LibStatics.pages hstat₁).trans h.pages,
      (congrArg LibStatics.initialized hstat₁).trans h.ready⟩
  by_cases hc : 0 < (((s₁.tag a).realSize.setWidth 64 - size -
      SIZEOF_BOUNDARY_TAG * 2).setWidth 32 : U32).toInt ∧
    0 ≤ getexp (((s₁.tag a).realSize.setWidth 64 - size -
      SIZEOF_BOUNDARY_TAG * 2).setWidth 32)
  · rw [if_pos hc]
    have hroom : 96 + (s₁.tag a).size.toNat ≤ (s₁.tag a).realSize.toNat := by
      rw [hsize₁]
      exact remainder_room (hreal₁ ▸ hfits) hc.1
    obtain ⟨hcore₂, hkept₂, hsplit⟩ := core_split hcore₁ rfl h.area (hsize₁ ▸ hmod) hroom rfl
    have hfresh := newTag_fresh hcore₁ h.area hroom
    obtain ⟨-, hkeep⟩ := LibState.toNat_rest (s := s₁) (a := a) (by omega)
    have hstat₂ := splitTag_rest s₁ a
    generalize s₁.splitTag a = s₂ at *
    obtain ⟨r, hr⟩ : ∃ r, r = binOf (s₁.rest a - SIZEOF_BOUNDARY_TAG.setWidth 32) := ⟨_, rfl⟩
    rw [← hr] at hcore₂ hsplit
    have hold : ∀ {b}, IsBlock area b → b ≠ newTag s₁ a := by
      rintro b hb rfl
      exact hb hfresh
    have hcases : ∀ j b, b ∈ update lists r (newTag s₁ a :: lists r) j →
        b = newTag s₁ a ∧ j = r ∨ b ∈ lists j := by
      intro j b hb
      by_cases hj : j = r
      · rw [hj, update_self] at hb
        rcases List.mem_cons.mp hb with rfl | hb
        · exact .inl ⟨rfl, hj⟩
        · exact .inr (hj ▸ hb)
      · rw [update_of_ne hj] at hb
        exact .inr hb
    have hlisted : ∀ b, b ≠ newTag s₁ a →
        Listed (update lists r (newTag s₁ a :: lists r)) b → Listed lists b := by
      rintro b hbn ⟨j, hj⟩
      exact ⟨j, (hcases j b hj).resolve_left fun hn => hbn hn.1⟩
    have hmember : ∀ j b, b ∈ lists j → IsBlock area b ∧ b ≠ a := by
      intro j b hb
      refine ⟨((h.core.shelved.member j b).mp hb).1, ?_⟩
      rintro rfl
      exact used_unlisted h.core.shelved hua j hb
    have hreal₂ : ∀ j b, b ∈ lists j → (s₂.tag b).realSize = (s₁.tag b).realSize := fun j b hb =>
      (hsplit.fields b (hmember j b hb).1).2.2.2 (hmember j b hb).2
    have hwhole₂ : ∀ j b, b ∈ lists j → s₂.whole b = s₁.whole b := by
      intro j b hb
      obtain ⟨B, hB⟩ := isBlock_area (hmember j b hb).1
      exact whole_congr hcore₁ hcore₂ hB
        ((update_of_ne (hold (isBlock_some hB)) ..).trans hB) (hreal₂ j b hb)
    -- what is cut off has a block before it
    have hcutoff : s₂.whole (newTag s₁ a) ≠ true := by
      have hsides := congrArg Links.prev (hsplit.sides (newTag s₁ a) (by
        unfold IsBlock
        rw [update_self, h.area]
        exact Option.some_ne_none A))
      have hprev : linkOf (s₂.tag (newTag s₁ a)).splitLeft = some a := hsides.trans (if_pos rfl)
      unfold LibState.whole
      rw [ne_eq, decide_eq_true_eq]
      rintro ⟨hn, -⟩
      rw [hn, linkOf_none.mpr rfl] at hprev
      cases hprev
    have hpolicy₂ : LibPolicy (update area (newTag s₁ a) (area a))
        (update lists r (newTag s₁ a :: lists r)) s₂ := by
      refine ⟨fun j b hb => ?_, ?_, fun j => ?_, fun j => ?_⟩
      · rcases hcases j b hb with ⟨rfl, rfl⟩ | hb
        · unfold LibState.bin
          rw [hsplit.size, hr]
        · rw [bin_congr (hreal₂ j b hb)]
          exact hpolicy₁.binned j b hb
      · refine coalesced_congr (coalesced_split hpolicy₁.coalesced hlisted
          (used_not_listed hcore₂ (hcore₂.taken a rfl)) (fun c hn hl => ?_) fun c C hc' hn => ?_)
          rfl fun b B hb => hsplit.sides b (isBlock_some hb)
        · have hcarea := (hcore₁.tiling.right a A c h.area hn).1
          have hn' : linkOf (s₁.tag a).splitRight = some c := hn
          rw [(hlinks₁ a hua.1).2.1] at hn'
          exact halone.right c hn' (hlisted c (hold (isBlock_some hcarea)) hl)
        · exact hold (isBlock_some (hcore₁.tiling.right c C _ hc' hn).1) rfl
      · have hcount : (lists j).countP s₂.whole = (lists j).countP s₁.whole :=
          List.countP_congr fun b hb => by rw [hwhole₂ j b hb]
        rw [hsplit.complete, hpolicy₁.counted]
        by_cases hj : j = r
        · rw [hj, update_self, List.countP_cons, ← hj, hcount, if_neg hcutoff, Nat.add_zero]
        · rw [update_of_ne hj, hcount]
      · rw [hsplit.complete]
        exact hpolicy₁.kept j
    refine ⟨_, _, ⟨hcore₂, hpolicy₂, (update_of_ne (hold hua.1) ..).trans h.area,
      kept_trans hheld₁.kept hkept₂, hstat₂.1.trans hheld₁.pages,
      hstat₂.2.trans hheld₁.ready⟩, ?_, ?_⟩
    · rw [(hsplit.fields a hua.1).2.1]
      exact hsize₁
    · exact Nat.le_of_eq (by rw [hsplit.kept, hkeep, hsize₁])
  · rw [if_neg hc]
    exact ⟨area, lists, hheld₁, hsize₁, hreal₁ ▸ hfits⟩

/-! ## 8. `malloc` -/

/-- What `malloc` has after it looked for a block of `z` bytes. -/
def Found (R : (Uptr → Option Nat) → ω → Prop) (blocks : Uptr → Option Usize) (m : Mem) (z : Nat)
    (a : Uptr) (s : LibState ω) : Prop :=
  ∃ spans area lists, R spans s.pages ∧
    (a = 0 ∧ LibInv spans blocks area lists s ∧ BlocksKept blocks m s.mem ∨
      a ≠ 0 ∧ ∃ A, Held spans blocks A m s.pages area lists s a ∧ Alone lists s a ∧
        48 + z ≤ (s.tag a).realSize.toNat)

/-- **A block of new pages.** -/
theorem ends_allocateNewTag (hsrc : src.Meets R E) (h : LibInv spans blocks area lists s)
    (hready : s.initialized = true) (hR : R spans s.pages) {size : U32}
    (hsize : size.toNat + 48 ≤ 2 ^ 32 - 4096) :
    ends (allocateNewTag src size) s (Found R blocks s.mem size.toNat) E := by
  obtain ⟨k, hk⟩ : ∃ k, k = max 16 ((size.toNat + 48 + 4095) / 4096) := ⟨_, rfl⟩
  have h48 : (SIZEOF_BOUNDARY_TAG.setWidth 32 : U32).toNat = 48 := rfl
  have husage : (size + SIZEOF_BOUNDARY_TAG.setWidth 32).toNat = size.toNat + 48 := by
    rw [BitVec.toNat_add, h48, Nat.mod_eq_of_lt (by omega)]
  have hpages : (pagesFor (size + SIZEOF_BOUNDARY_TAG.setWidth 32)).toNat = k := by
    rw [pagesFor_toNat, husage, hk]
  have hcount := toInt_pages hpages (by omega)
  have hbytes : (pagesFor (size + SIZEOF_BOUNDARY_TAG.setWidth 32) * LIBALLOC_PAGE_SIZE).toNat =
      4096 * k := by
    have hps : LIBALLOC_PAGE_SIZE.toNat = 4096 := rfl
    rw [BitVec.toNat_mul, hpages, hps, Nat.mod_eq_of_lt (by omega), Nat.mul_comm]
  unfold allocateNewTag onSource
  dsimp only
  rw [ends_bind, ends_zoom, hcount]
  refine ends_mono (hsrc.alloc spans s.mem s.pages k hR (by omega) (by omega)) (fun p t ht => ?_)
    fun _ he => he
  obtain ⟨hm, ⟨rfl, hRt⟩ | ⟨hp0, hal, htop, hnone, hclear, hRt⟩⟩ := ht
  · rw [if_pos rfl, ends_pure]
    obtain ⟨s₁, hs₁⟩ : ∃ s₁ : LibState ω, s₁ = { s with mem := t.1, pages := t.2 } := ⟨_, rfl⟩
    have hm₁ : SpansKept spans s.mem s₁.mem := by
      rw [hs₁]
      exact hm
    have htag : ∀ b, IsBlock area b → s₁.tag b = s.tag b := by
      intro b hb
      obtain ⟨B, hB⟩ := isBlock_area hb
      exact tag_spans h.core hB (fun _ _ _ hq => hq) hm₁
    have hinv : LibInv spans blocks area lists s₁ :=
      inv_tags h htag (by rw [hs₁]) (by rw [hs₁]) (by rw [hs₁]; exact id)
    have hkept := payload_spans h.core (fun _ _ _ _ _ _ _ _ hq => hq) hm₁
    rw [← hs₁]
    refine ⟨spans, area, lists, ?_, .inl ⟨rfl, hinv, hkept⟩⟩
    rw [hs₁]
    exact hRt
  · rw [if_neg hp0, ends_bind, ends_modify, ends_pure]
    obtain ⟨tag, htagdef⟩ : ∃ tag : BoundaryTag, tag =
        { magic := LIBALLOC_MAGIC, size
          realSize := pagesFor (size + SIZEOF_BOUNDARY_TAG.setWidth 32) * LIBALLOC_PAGE_SIZE
          index := -1, splitLeft := 0, splitRight := 0, next := 0, prev := 0 } := ⟨_, rfl⟩
    obtain ⟨s₁, hs₁⟩ : ∃ s₁ : LibState ω, s₁ =
        ({ s with mem := t.1, pages := t.2 } : LibState ω).modTag p fun _ => tag := ⟨_, rfl⟩
    have htag : s₁.tag p = tag := by
      rw [hs₁]
      exact readTag_writeTag ..
    have hspan : SpanTag (s₁.tag p) k := by
      rw [htag, htagdef]
      exact ⟨rfl, hbytes, rfl, rfl, rfl, rfl, rfl⟩
    have hm₁ : SpansKept spans s.mem s₁.mem := by
      intro q j hq y hy₁ hy₂
      rw [hs₁]
      refine (writeTag_out ?_).trans (hm q j hq y hy₁ hy₂)
      have hc := hclear q j hq
      unfold Clear at hc
      omega
    obtain ⟨hcore, hkept, harea, hsame⟩ := core_open h.core ⟨hp0, by omega, by omega, htop⟩ hal
      hnone hclear hm₁ (by rw [hs₁]; rfl) hspan
    have hcore' : LibCore (update spans p (some k)) blocks (fun b => b = p)
        (update area p (some (pagesAt p k))) lists s₁ :=
      core_taken hcore fun b => ⟨.inl, fun hb => hb.elim id False.elim⟩
    have hlisted : ∀ i b, b ∈ lists i → s₁.tag b = s.tag b := fun i b hb =>
      hsame b ((h.core.shelved.member i b).mp hb).1
    have hpolicy : LibPolicy (update area p (some (pagesAt p k))) lists s₁ := by
      refine policy_congr h.policy (fun i b hb => ⟨by rw [hlisted i b hb],
        whole_tag (hlisted i b hb)⟩) ?_ (by rw [hs₁]; rfl)
      refine coalesced_congr (coalesced_opened (A := pagesAt p k) h.policy.coalesced
        (fun _ _ hl => hl) h.core.tiling harea) rfl fun b B hb => ?_
      show Links.mk (linkOf (s₁.tag b).splitLeft) (linkOf (s₁.tag b).splitRight) =
        update (s.tiles area).sides p ⟨none, none⟩ b
      by_cases hbp : b = p
      · rw [hbp, update_self, hspan.splitLeft, hspan.splitRight]
        rfl
      · have hbb : IsBlock area b := by
          have hb : update area p (some (pagesAt p k)) b = some B := hb
          rw [update_of_ne hbp] at hb
          exact isBlock_some hb
        rw [update_of_ne hbp, hsame b hbb]
        rfl
    have halone : Alone lists s₁ p := by
      refine ⟨fun b hb => ?_, fun b hb => ?_⟩
      · rw [hspan.splitLeft, linkOf_none.mpr rfl] at hb
        cases hb
      · rw [hspan.splitRight, linkOf_none.mpr rfl] at hb
        cases hb
    have hpagesEq : s₁.pages = t.2 := by rw [hs₁]; rfl
    have hready₁ : s₁.initialized = true := by
      rw [hs₁]
      exact hready
    rw [← htagdef, ← hs₁]
    refine ⟨_, _, _, ?_, .inr ⟨hp0, _, ⟨hcore', hpolicy, update_self .., hkept, rfl, hready₁⟩,
      halone, ?_⟩⟩
    · rw [hpagesEq]
      exact hRt
    · rw [hspan.realSize]
      omega

/-- **The first call** finds the tables as it leaves them. -/
theorem inv_init (h : LibInv spans blocks area lists s) :
    LibInv spans blocks area lists s.init ∧ s.init.initialized = true ∧ s.init.mem = s.mem ∧
      s.init.pages = s.pages := by
  unfold LibState.init
  cases hi : s.initialized with
  | true =>
      rw [if_pos rfl]
      exact ⟨h, hi, rfl, rfl⟩
  | false =>
      have hnone := h.fresh hi
      have hempty : ∀ i, lists i = [] := by
        intro i
        refine List.eq_nil_iff_forall_not_mem.mpr fun a ha => ?_
        obtain ⟨A, hA⟩ := isBlock_area ((h.core.shelved.member i a).mp ha).1
        obtain ⟨q, k, hq, -⟩ := h.core.span a A hA
        rw [hnone q] at hq
        cases hq
      have hfree : ∀ i, s.freePages i = 0 := by
        intro i
        have hhead : linkOf (s.freePages i) = (lists i).head? := (h.core.shelved.list i).head
        rw [hempty i] at hhead
        exact linkOf_none.mp hhead
      have hcomplete : ∀ i, s.completePages i = 0 := by
        intro i
        rw [h.policy.counted i, hempty i]
        rfl
      rw [if_neg Bool.false_ne_true]
      have hf : (fun i => if i < MAXEXP then 0 else s.freePages i) = s.freePages := by
        funext i
        rw [hfree i, ite_self]
      have hc : (fun i => if i < MAXEXP then 0 else s.completePages i) = s.completePages := by
        funext i
        rw [hcomplete i, ite_self]
      rw [hf, hc]
      exact ⟨inv_tags h (fun _ _ => rfl) rfl rfl nofun, rfl, rfl, rfl⟩

theorem takeTag_rest (s : LibState ω) (i : Nat) (a : Uptr) :
    (s.takeTag i a).pages = s.pages ∧ (s.takeTag i a).initialized = s.initialized := by
  obtain ⟨-, hpages, hready⟩ := removeTag_rest s a
  unfold LibState.takeTag
  dsimp only
  split
  · exact ⟨hpages, hready⟩
  · exact ⟨hpages, hready⟩

/-- The size of a request. -/
theorem toNat_rounded {size : Usize} (hsize : size.toNat < 2 ^ 31) :
    ((size + ALIGNOF_BOUNDARY_TAG - 1) &&& ~~~(ALIGNOF_BOUNDARY_TAG - 1)).toNat =
      (size.toNat + 7) / 8 * 8 := by
  have h8 : ALIGNOF_BOUNDARY_TAG.toNat = 8 := rfl
  have h1 : (1 : Usize).toNat = 1 := rfl
  rw [toNat_and_field 3 61 (by decide), BitVec.toNat_sub, BitVec.toNat_add, h8, h1]
  omega

/-- **`malloc`**, for sizes that are counted in an `int`. -/
theorem ends_libMalloc (hsrc : src.Meets R E) (h : LibInv spans blocks area lists s)
    (hR : R spans s.pages) (hsize : n.toNat < 2 ^ 31) :
    ends (libMalloc src n) s (fun p s' => ∃ spans' area' lists', R spans' s'.pages ∧
      BlocksKept blocks s.mem s'.mem ∧
      (p = 0 ∧ LibInv spans' blocks area' lists' s' ∨ p ≠ 0 ∧ blocks p = none ∧
        LibInv spans' (update blocks p (some n)) area' lists' s')) E := by
  obtain ⟨size, hsz⟩ : ∃ size : Usize,
      size = (n + ALIGNOF_BOUNDARY_TAG - 1) &&& ~~~(ALIGNOF_BOUNDARY_TAG - 1) := ⟨_, rfl⟩
  have hround : size.toNat = (n.toNat + 7) / 8 * 8 := hsz ▸ toNat_rounded hsize
  have hlow : (size.setWidth 32 : U32).toNat = size.toNat := by
    rw [BitVec.toNat_setWidth, Nat.mod_eq_of_lt (by omega)]
  obtain ⟨hinv, hready, hmem, hpages⟩ := inv_init h
  unfold libMalloc
  dsimp only
  rw [← hsz, ends_bind, ends_modify, ends_bind, ends_get, ← hmem]
  rw [← hpages] at hR
  generalize s.init = s₀ at *
  rw [findTag_first hinv.core size (binOf (size.setWidth 32)), ends_bind]
  have hfound : ends (if ((lists (binOf (size.setWidth 32))).find? (s₀.hasRoom size)).getD 0 = 0
      then allocateNewTag src (size.setWidth 32)
      else do
        modify fun s => s.takeTag (binOf (size.setWidth 32))
          (((lists (binOf (size.setWidth 32))).find? (s₀.hasRoom size)).getD 0)
        return ((lists (binOf (size.setWidth 32))).find? (s₀.hasRoom size)).getD 0) s₀
      (Found R blocks s₀.mem size.toNat) E := by
    cases hfind : (lists (binOf (size.setWidth 32))).find? (s₀.hasRoom size) with
    | none =>
        rw [Option.getD_none, if_pos rfl, ← hlow]
        exact ends_allocateNewTag hsrc hinv hready hR (by omega)
    | some a =>
        have ha := List.mem_of_find?_eq_some hfind
        have hablock := ((hinv.core.shelved.member _ a).mp ha).1
        obtain ⟨A, hA⟩ := isBlock_area hablock
        have hne := (core_headers hinv.core).nonzero a hablock
        have hroom := room_of_hasRoom (hinv.core.block a A hA).least (by omega)
          (List.find?_some hfind)
        obtain ⟨hcore, hpolicy, hkept, hreal, halone⟩ := inv_takeTag hinv.core hinv.policy ha
        have hrest := takeTag_rest s₀ (binOf (size.setWidth 32)) a
        rw [Option.getD_some, if_neg hne, ends_bind, ends_modify, ends_pure]
        refine ⟨spans, area, _, hrest.1 ▸ hR, .inr ⟨hne, A, ⟨core_taken hcore fun b =>
          ⟨.inl, fun hb => hb.elim id False.elim⟩, hpolicy, hA, hkept, rfl,
          hrest.2.trans hready⟩, halone, ?_⟩⟩
        rw [hreal]
        omega
  refine ends_mono hfound (fun a s₁ hgot => ?_) fun _ he => he
  obtain ⟨spans', area', lists', hR', ⟨rfl, hinv', hkept⟩ | ⟨hne, A, hheld, halone, hfits⟩⟩ := hgot
  · rw [if_pos rfl, ends_pure]
    exact ⟨spans', area', lists', hR', hkept, .inl ⟨rfl, hinv'⟩⟩
  · rw [if_neg hne, ends_bind, ends_modify, ends_pure]
    obtain ⟨area₂, lists₂, hheld₂, hsize₂, hfits₂⟩ :=
      held_trimTag hheld halone (by omega) (by omega) hfits
    generalize s₁.trimTag a size = s₂ at *
    have hua := hheld₂.core.taken a rfl
    have hpos := toNat_payload hheld₂.core hua.1
    have hgrant := core_grant hheld₂.core rfl (n := n) (by omega) (by omega)
    refine ⟨spans', area₂, lists₂, hheld₂.pages ▸ hR', hheld₂.kept, .inr ⟨?_, ?_, ?_, hheld₂.policy,
      fun hn => ?_⟩⟩
    · intro h0
      rw [h0] at hpos
      have hz : (0 : Uptr).toNat = 0 := rfl
      omega
    · cases hb : blocks (a + SIZEOF_BOUNDARY_TAG) with
      | none => rfl
      | some k =>
          obtain ⟨b, hab, hX, -⟩ := hheld₂.core.live _ k hb
          exact absurd (add_tag_inj hab).symm hX
    · exact core_taken hgrant fun b => ⟨False.elim, fun hn => hn.1 hn.2⟩
    · rw [hheld₂.ready] at hn
      cases hn

end Policy

end Slightx
