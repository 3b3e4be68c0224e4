/-
  File:      Slightx/Mem/LiballocInv.lean
  Subject:   What the helpers of the allocator keep.

  Source: vendor/liballoc/src/liballoc.c.

  The tags are the only data structure of the allocator. The ghost data is the area of each block
  (`area`), the free lists (`lists`), and the set `X` of the blocks a call has taken and not yet
  passed on.

  * `LibCore` -- the blocks tile the spans of pages, the free ones are on the free lists, and the
    others are those of the callers and of `X`
  * `core_remove`, `core_insert` -- a block leaves a free list, or joins one
  * `core_join`, `core_split` -- two blocks become one, a block becomes two
  * `core_open`, `core_close` -- a span of pages comes, or goes
-/
import Slightx.Mem.Heap
import Slightx.Mem.Liballoc

namespace Slightx

open Lib Function

/-! ## 1. The blocks -/

/-- The tag of a block. -/
structure BlockTag {ω : Type} (s : LibState ω) (a : Uptr) : Prop where
  magic : (s.tag a).magic = LIBALLOC_MAGIC
  least : 48 ≤ (s.tag a).realSize.toNat
  aligned : a.toNat % 8 = 0

/-- The block is on no free list. -/
def Used {ω : Type} (area : Uptr → Option Extent) (s : LibState ω) (a : Uptr) : Prop :=
  IsBlock area a ∧ shelfOf (s.tag a).index = none

/-- The area of `n` pages at `p`. -/
def pagesAt (p : Uptr) (n : Nat) : Extent := ⟨p.toNat, 4096 * n⟩

/-- **The allocator is sound.** -/
structure LibCore {ω : Type} (spans : Uptr → Option Nat) (blocks : Uptr → Option Usize)
    (X : Uptr → Prop) (area : Uptr → Option Extent) (lists : Nat → List Uptr) (s : LibState ω) :
    Prop where
  tiling : Tiling BitVec.toNat (s.tiles area)
  block : ∀ a A, area a = some A → BlockTag s a
  span : ∀ a A, area a = some A → ∃ p n, spans p = some n ∧ A = pagesAt p n
  base : ∀ p n, spans p = some n → area p = some (pagesAt p n)
  bound : ∀ p n, spans p = some n → p ≠ 0 ∧ 16 ≤ n ∧ 4096 * n < 2 ^ 32 ∧
    p.toNat + 4096 * n < 2 ^ 64
  shelved : Shelved s.shelves (IsBlock area) lists
  live : ∀ p n, blocks p = some n → ∃ a, p = a + SIZEOF_BOUNDARY_TAG ∧ ¬ X a ∧ Used area s a ∧
    n.toNat ≤ (s.tag a).size.toNat ∧ 48 + (s.tag a).size.toNat ≤ (s.tag a).realSize.toNat
  owner : ∀ a, Used area s a → X a ∨ ∃ n, blocks (a + SIZEOF_BOUNDARY_TAG) = some n
  taken : ∀ a, X a → Used area s a

section Core

variable {ω : Type} {spans : Uptr → Option Nat} {blocks : Uptr → Option Usize} {X : Uptr → Prop}
  {area : Uptr → Option Extent} {lists : Nat → List Uptr} {s s' : LibState ω} {a b l p : Uptr}
  {A : Extent} {i : Nat} {n : Usize}

theorem isBlock_area (ha : IsBlock area a) : ∃ A, area a = some A :=
  Option.ne_none_iff_exists'.mp ha

/-- Where a block lies. -/
theorem core_place (h : LibCore spans blocks X area lists s) (ha : area a = some A) :
    0 < A.base ∧ A.base ≤ a.toNat ∧ a.toNat + (s.tag a).realSize.toNat ≤ A.base + A.size ∧
      A.size < 2 ^ 32 ∧ A.base + A.size < 2 ^ 64 := by
  obtain ⟨q, k, hq, rfl⟩ := h.span a A ha
  obtain ⟨hnull, -, hsize, hend⟩ := h.bound q k hq
  have hpos : 0 < q.toNat := by
    refine Nat.pos_of_ne_zero fun h0 => hnull (BitVec.eq_of_toNat_eq ?_)
    exact h0
  obtain ⟨hlow, hhigh⟩ := h.tiling.within a _ ha
  exact ⟨hpos, hlow, hhigh, hsize, hend⟩

theorem headers_of (hblock : ∀ a A, area a = some A → BlockTag s a)
    (hnull : ∀ a A, area a = some A → a ≠ 0)
    (hclear : ∀ a b A B, area a = some A → area b = some B → a ≠ b →
      Clear a.toNat (s.tag a).realSize.toNat b.toNat (s.tag b).realSize.toNat) :
    Headers (IsBlock area) := by
  refine ⟨fun a ha => ?_, fun a b ha hb hne => ?_⟩
  · obtain ⟨A, hA⟩ := isBlock_area ha
    exact hnull a A hA
  · obtain ⟨A, hA⟩ := isBlock_area ha
    obtain ⟨B, hB⟩ := isBlock_area hb
    have hc := hclear a b A B hA hB hne
    have hla := (hblock a A hA).least
    have hlb := (hblock b B hB).least
    unfold Clear at hc ⊢
    omega

theorem core_headers (h : LibCore spans blocks X area lists s) : Headers (IsBlock area) := by
  refine headers_of h.block (fun a A ha => ?_) h.tiling.apart
  rintro rfl
  obtain ⟨hpos, hlow, -⟩ := core_place h ha
  exact absurd (Nat.lt_of_lt_of_le hpos hlow) (Nat.not_lt_zero _)

theorem toNat_payload (h : LibCore spans blocks X area lists s) (ha : IsBlock area a) :
    (a + SIZEOF_BOUNDARY_TAG).toNat = a.toNat + 48 := by
  obtain ⟨A, hA⟩ := isBlock_area ha
  obtain ⟨-, -, hend, -, htop⟩ := core_place h hA
  have hleast := (h.block a A hA).least
  have h48 : SIZEOF_BOUNDARY_TAG.toNat = 48 := rfl
  rw [BitVec.toNat_add, h48, Nat.mod_eq_of_lt (by omega)]

/-- **No tag is in a payload.** -/
theorem payload_clear (h : LibCore spans blocks X area lists s) (hp : blocks p = some n) {y : Nat}
    (hy : InBlock p n y) : ¬ InHeaders (IsBlock area) y := by
  rintro ⟨b, hb, hlow, hhigh⟩
  obtain ⟨a, rfl, -, hused, hsize, hroom⟩ := h.live p n hp
  obtain ⟨A, hA⟩ := isBlock_area hused.1
  obtain ⟨B, hB⟩ := isBlock_area hb
  have hpos := toNat_payload h hused.1
  have hleast := (h.block b B hB).least
  obtain ⟨hy₁, hy₂⟩ := hy
  by_cases hab : a = b
  · subst hab
    omega
  · have hc : Clear a.toNat (s.tag a).realSize.toNat b.toNat (s.tag b).realSize.toNat :=
      h.tiling.apart a b A B hA hB hab
    unfold Clear at hc
    omega

theorem kept_of_sameOff (h : LibCore spans blocks X area lists s) {m m' : Mem}
    (hm : SameOff (InHeaders (IsBlock area)) m m') : BlocksKept blocks m m' :=
  fun _ _ hp y hy => hm y (payload_clear h hp hy)

theorem kept_trans {m m' m'' : Mem} (h₁ : BlocksKept blocks m m') (h₂ : BlocksKept blocks m' m'') :
    BlocksKept blocks m m'' :=
  fun b n hb x hx => (h₂ b n hb x hx).trans (h₁ b n hb x hx)

theorem sides_eq (hleft : (s'.tag b).splitLeft = (s.tag b).splitLeft)
    (hright : (s'.tag b).splitRight = (s.tag b).splitRight) :
    (s'.tiles area).sides b = (s.tiles area).sides b := by
  show Links.mk (linkOf (s'.tag b).splitLeft) (linkOf (s'.tag b).splitRight) =
    Links.mk (linkOf (s.tag b).splitLeft) (linkOf (s.tag b).splitRight)
  rw [hleft, hright]

/-- Tags with the same sizes and neighbours. -/
theorem tiling_tags (h : Tiling BitVec.toNat (s.tiles area))
    (hf : ∀ b, IsBlock area b → (s'.tag b).realSize = (s.tag b).realSize ∧
      (s'.tag b).splitLeft = (s.tag b).splitLeft ∧
      (s'.tag b).splitRight = (s.tag b).splitRight) :
    Tiling BitVec.toNat (s'.tiles area) := by
  refine tiling_congr h rfl (fun b B hb => ?_) fun b B hb => ?_
  · exact congrArg BitVec.toNat (hf b (isBlock_some hb)).1
  · exact sides_eq (hf b (isBlock_some hb)).2.1 (hf b (isBlock_some hb)).2.2

/-- A free block is not in use. -/
theorem listed_not_used (h : Shelved s.shelves (IsBlock area) lists) (ha : a ∈ lists i) :
    IsBlock area a ∧ shelfOf (s.tag a).index = some i :=
  (h.member i a).mp ha

/-! ## 2. A block leaves a list -/

theorem removeTag_fields (hD : Headers (IsBlock area))
    (hrem : LibState.Removable (IsBlock area) s a)
    (hb : IsBlock area b) :
    ((s.removeTag a).tag b).magic = (s.tag b).magic ∧
      ((s.removeTag a).tag b).size = (s.tag b).size ∧
      ((s.removeTag a).tag b).realSize = (s.tag b).realSize ∧
      ((s.removeTag a).tag b).splitLeft = (s.tag b).splitLeft ∧
      ((s.removeTag a).tag b).splitRight = (s.tag b).splitRight ∧
      ((s.removeTag a).tag b).index = if b = a then -1 else (s.tag b).index := by
  rw [LibState.removeTag_tag hD hrem hb]
  by_cases hba : b = a
  · rw [if_pos hba, if_pos hba, hba]
    exact ⟨rfl, rfl, rfl, rfl, rfl, rfl⟩
  · rw [if_neg hba, if_neg hba]
    exact ⟨rfl, rfl, rfl, rfl, rfl, rfl⟩

/-- **A free block is taken.** -/
theorem core_remove (h : LibCore spans blocks X area lists s) (ha : a ∈ lists i) :
    LibCore spans blocks (fun b => b = a ∨ X b) area (update lists i ((lists i).erase a))
        (s.removeTag a) ∧ BlocksKept blocks s.mem (s.removeTag a).mem := by
  have hD := core_headers h
  have hrem := LibState.removable hD h.shelved ha
  obtain ⟨hablock, hashelf⟩ := listed_not_used h.shelved ha
  have hfields := fun b (hb : IsBlock area b) => removeTag_fields hD hrem hb
  have hused : ∀ b, Used area (s.removeTag a) b ↔ b = a ∨ Used area s b := by
    intro b
    by_cases hba : b = a
    · subst hba
      refine ⟨fun _ => .inl rfl, fun _ => ⟨hablock, ?_⟩⟩
      rw [(hfields b hablock).2.2.2.2.2, if_pos rfl]
      exact shelfOf_taken
    · refine ⟨fun hb => .inr ⟨hb.1, ?_⟩, fun hb => ?_⟩
      · have hn := hb.2
        rw [(hfields b hb.1).2.2.2.2.2, if_neg hba] at hn
        exact hn
      · have hb := hb.resolve_left hba
        refine ⟨hb.1, ?_⟩
        rw [(hfields b hb.1).2.2.2.2.2, if_neg hba]
        exact hb.2
  refine ⟨⟨?_, fun b B hb => ?_, h.span, h.base, h.bound,
    LibState.removeTag_shelves hD h.shelved ha, fun p n hp => ?_, fun b hb => ?_, fun b hb => ?_⟩,
    kept_of_sameOff h (LibState.removeTag_sameOff hD hrem)⟩
  · exact tiling_tags h.tiling fun b hb => ⟨(hfields b hb).2.2.1, (hfields b hb).2.2.2.1,
      (hfields b hb).2.2.2.2.1⟩
  · obtain ⟨hmagic, -, hsize, -⟩ := hfields b (isBlock_some hb)
    have htag := h.block b B hb
    refine ⟨hmagic.trans htag.magic, ?_, htag.aligned⟩
    rw [hsize]
    exact htag.least
  · obtain ⟨b, hpb, hX, hb, hsize, hroom⟩ := h.live p n hp
    obtain ⟨-, hsz, hreal, -⟩ := hfields b hb.1
    refine ⟨b, hpb, ?_, (hused b).mpr (.inr hb), ?_, ?_⟩
    · rintro (rfl | hXb)
      · rw [hb.2] at hashelf
        cases hashelf
      · exact hX hXb
    · rw [hsz]
      exact hsize
    · rw [hsz, hreal]
      exact hroom
  · rcases (hused b).mp hb with hba | hb
    · exact .inl (.inl hba)
    · exact (h.owner b hb).imp_left .inr
  · exact (hused b).mpr (hb.imp_right fun hX => h.taken b hX)

/-! ## 3. A block joins a list -/

variable {index : Int} {r : Nat}

theorem insertTag_fields (hD : Headers (IsBlock area)) (ha : IsBlock area a)
    (hr : s.realIndex a index = r) (hh : s.freePages r = 0 ∨ IsBlock area (s.freePages r))
    (hne : s.freePages r ≠ a) (hb : IsBlock area b) :
    ((s.insertTag a index).tag b).magic = (s.tag b).magic ∧
      ((s.insertTag a index).tag b).size = (s.tag b).size ∧
      ((s.insertTag a index).tag b).realSize = (s.tag b).realSize ∧
      ((s.insertTag a index).tag b).splitLeft = (s.tag b).splitLeft ∧
      ((s.insertTag a index).tag b).splitRight = (s.tag b).splitRight ∧
      ((s.insertTag a index).tag b).index =
        if b = a then BitVec.ofNat 32 r else (s.tag b).index := by
  rw [LibState.insertTag_tag hD ha hr hh hne hb]
  by_cases hba : b = a
  · rw [if_pos hba, if_pos hba, hba]
    exact ⟨rfl, rfl, rfl, rfl, rfl, rfl⟩
  · rw [if_neg hba, if_neg hba]
    split
    · exact ⟨rfl, rfl, rfl, rfl, rfl, rfl⟩
    · exact ⟨rfl, rfl, rfl, rfl, rfl, rfl⟩

/-- A block in use is on no list. -/
theorem used_unlisted (h : Shelved s.shelves (IsBlock area) lists) (ha : Used area s a) (j : Nat) :
    a ∉ lists j := by
  intro hj
  have hshelf := ((h.member j a).mp hj).2
  have hnone := ha.2
  rw [show s.shelves.shelf a = shelfOf (s.tag a).index from rfl, hnone] at hshelf
  cases hshelf

theorem used_links (h : Shelved s.shelves (IsBlock area) lists) (ha : Used area s a) :
    (s.tag a).prev = 0 ∧ (s.tag a).next = 0 := by
  have hoff := h.off a ha.1 ha.2
  exact ⟨linkOf_none.mp (congrArg Links.prev hoff), linkOf_none.mp (congrArg Links.next hoff)⟩

theorem head_block (h : Shelved s.shelves (IsBlock area) lists) (ha : Used area s a) (r : Nat) :
    (s.freePages r = 0 ∨ IsBlock area (s.freePages r)) ∧ (a ≠ 0 → s.freePages r ≠ a) := by
  have hhead := LibState.head_listed (i := r) h
  refine ⟨hhead.imp_right fun hm => hm.1, fun hnull he => ?_⟩
  rcases hhead with h0 | hm
  · exact hnull (he.symm.trans h0)
  · exact used_unlisted h ha r (he ▸ hm.2)

/-- **A block of `X` is free again.** -/
theorem core_insert (h : LibCore spans blocks X area lists s) (ha : X a)
    (hr : s.realIndex a index = r) (hlt : r < 2 ^ 31) :
    LibCore spans blocks (fun b => b ≠ a ∧ X b) area (update lists r (a :: lists r))
        (s.insertTag a index) ∧ BlocksKept blocks s.mem (s.insertTag a index).mem := by
  have hD := core_headers h
  have hua := h.taken a ha
  have hnull := hD.nonzero a hua.1
  obtain ⟨hh, hne⟩ := head_block h.shelved hua r
  obtain ⟨hprev, hnext⟩ := used_links h.shelved hua
  have hfields := fun b (hb : IsBlock area b) =>
    insertTag_fields hD hua.1 hr hh (hne hnull) hb
  have hshelf : shelfOf ((s.insertTag a index).tag a).index = some r := by
    rw [(hfields a hua.1).2.2.2.2.2, if_pos rfl]
    exact shelfOf_ofNat hlt
  have hused : ∀ b, Used area (s.insertTag a index) b ↔ b ≠ a ∧ Used area s b := by
    intro b
    by_cases hba : b = a
    · subst hba
      refine ⟨fun hb => ?_, fun hb => absurd rfl hb.1⟩
      have hn := hb.2
      rw [hshelf] at hn
      cases hn
    · refine ⟨fun hb => ⟨hba, hb.1, ?_⟩, fun hb => ⟨hb.2.1, ?_⟩⟩
      · have hn := hb.2
        rw [(hfields b hb.1).2.2.2.2.2, if_neg hba] at hn
        exact hn
      · rw [(hfields b hb.2.1).2.2.2.2.2, if_neg hba]
        exact hb.2.2
  refine ⟨⟨?_, fun b B hb => ?_, h.span, h.base, h.bound, ?_, fun p n hp => ?_, fun b hb => ?_,
    fun b hb => ?_⟩, kept_of_sameOff h (LibState.insertTag_sameOff index hua.1 (hr ▸ hh))⟩
  · exact tiling_tags h.tiling fun b hb => ⟨(hfields b hb).2.2.1, (hfields b hb).2.2.2.1,
      (hfields b hb).2.2.2.2.1⟩
  · obtain ⟨hmagic, -, hsize, -⟩ := hfields b (isBlock_some hb)
    have htag := h.block b B hb
    refine ⟨hmagic.trans htag.magic, ?_, htag.aligned⟩
    rw [hsize]
    exact htag.least
  · refine LibState.insertTag_shelves hD (fun b => ?_) h.shelved (used_unlisted h.shelved hua)
      hprev hnext hr hlt
    refine ⟨.inr, fun hb => hb.elim (fun hba => ?_) id⟩
    rw [hba]
    exact hua.1
  · obtain ⟨b, hpb, hX, hb, hsize, hroom⟩ := h.live p n hp
    obtain ⟨-, hsz, hreal, -⟩ := hfields b hb.1
    refine ⟨b, hpb, fun hXb => hX hXb.2, (hused b).mpr ⟨?_, hb⟩, ?_, ?_⟩
    · rintro rfl
      exact hX ha
    · rw [hsz]
      exact hsize
    · rw [hsz, hreal]
      exact hroom
  · obtain ⟨hba, hb⟩ := (hused b).mp hb
    exact (h.owner b hb).imp_left fun hX => ⟨hba, hX⟩
  · exact (hused b).mpr ⟨hb.1, h.taken b hb.2⟩

/-! ## 4. Two blocks become one -/

theorem joinTags_fields (hD : Headers (IsBlock area))
    (hjoin : LibState.Joinable (IsBlock area) s l a)
    (hb : IsBlock area b) :
    ((s.joinTags l a).tag b).magic = (s.tag b).magic ∧
      ((s.joinTags l a).tag b).size = (s.tag b).size ∧
      (b ≠ l → ((s.joinTags l a).tag b).realSize = (s.tag b).realSize) ∧
      ((s.joinTags l a).tag b).index = (s.tag b).index ∧
      ((s.joinTags l a).tag b).next = (s.tag b).next ∧
      ((s.joinTags l a).tag b).prev = (s.tag b).prev := by
  rw [LibState.joinTags_tag hD hjoin hb]
  by_cases hbl : b = l
  · rw [if_pos hbl, hbl]
    exact ⟨rfl, rfl, fun hne => absurd rfl hne, rfl, rfl, rfl⟩
  · rw [if_neg hbl]
    split
    · exact ⟨rfl, rfl, fun _ => rfl, rfl, rfl, rfl⟩
    · exact ⟨rfl, rfl, fun _ => rfl, rfl, rfl, rfl⟩

/-- The sizes of two neighbours. -/
theorem join_sum (h : LibCore spans blocks X area lists s) (hl : area l = some A)
    (hn : linkOf (s.tag l).splitRight = some a) :
    (s.tag l).realSize.toNat + (s.tag a).realSize.toNat < 2 ^ 32 := by
  obtain ⟨ha, hpos, -⟩ := h.tiling.right l A a hl hn
  have hpos : a.toNat = l.toNat + (s.tag l).realSize.toNat := hpos
  obtain ⟨-, hlow, -, -, -⟩ := core_place h hl
  obtain ⟨-, -, hend, hsize, -⟩ := core_place h ha
  omega

/-- **A block of `X` becomes part of the one before it.** -/
theorem core_join (h : LibCore spans blocks X area lists s) (ha : X a) (hl : area l = some A)
    (hn : linkOf (s.tag l).splitRight = some a) (hlX : Used area s l → X l) :
    LibCore spans blocks (fun b => b ≠ a ∧ X b) (update area a none) lists (s.joinTags l a) ∧
      BlocksKept blocks s.mem (s.joinTags l a).mem := by
  have hD := core_headers h
  have hjoin := LibState.joinable h.tiling hl hn
  have hua := h.taken a ha
  have hsum := join_sum h hl hn
  have hfields := fun b (hb : IsBlock area b) => joinTags_fields hD hjoin hb
  have hold : ∀ {b B}, update area a none b = some B → b ≠ a ∧ area b = some B := by
    intro b B hb
    by_cases hba : b = a
    · rw [hba, update_self] at hb
      cases hb
    · rw [update_of_ne hba] at hb
      exact ⟨hba, hb⟩
  have hblock : ∀ b, IsBlock (update area a none) b ↔ b ≠ a ∧ IsBlock area b := by
    intro b
    unfold IsBlock
    by_cases hba : b = a
    · rw [hba, update_self]
      exact ⟨fun hn => absurd rfl hn, fun hn => absurd rfl hn.1⟩
    · rw [update_of_ne hba]
      exact ⟨fun hn => ⟨hba, hn⟩, fun hn => hn.2⟩
  have hused : ∀ b, Used (update area a none) (s.joinTags l a) b ↔ b ≠ a ∧ Used area s b := by
    intro b
    refine ⟨fun hb => ?_, fun hb => ?_⟩
    · obtain ⟨hba, hbb⟩ := (hblock b).mp hb.1
      have hidx := hb.2
      rw [(hfields b hbb).2.2.2.1] at hidx
      exact ⟨hba, hbb, hidx⟩
    · refine ⟨(hblock b).mpr ⟨hb.1, hb.2.1⟩, ?_⟩
      rw [(hfields b hb.2.1).2.2.2.1]
      exact hb.2.2
  refine ⟨⟨LibState.joinTags_tiles hD h.tiling hl hn hsum, fun b B hb => ?_,
    fun b B hb => h.span b B (hold hb).2, fun p n hp => ?_, h.bound, ?_, fun p n hp => ?_,
    fun b hb => ?_, fun b hb => ?_⟩, kept_of_sameOff h (LibState.joinTags_sameOff hD hjoin)⟩
  · obtain ⟨-, hb⟩ := hold hb
    have htag := h.block b B hb
    obtain ⟨hmagic, -, hreal, -⟩ := hfields b (isBlock_some hb)
    refine ⟨hmagic.trans htag.magic, ?_, htag.aligned⟩
    by_cases hbl : b = l
    · have hleast := htag.least
      rw [LibState.joinTags_tag hD hjoin (isBlock_some hb), if_pos hbl]
      show 48 ≤ ((s.tag l).realSize + (s.tag a).realSize).toNat
      rw [BitVec.toNat_add, Nat.mod_eq_of_lt hsum, ← hbl]
      omega
    · rw [hreal hbl]
      exact htag.least
  · -- the first block of a span has none before it
    have hpa : p ≠ a := by
      rintro rfl
      have hp' := h.base p n hp
      have hfirst := (h.tiling.first p _ hp').mpr rfl
      rw [(h.tiling.right l A p hl hn).2.2] at hfirst
      cases hfirst
    rw [update_of_ne hpa]
    exact h.base p n hp
  · have hnode : ∀ b, IsBlock area b → (s.joinTags l a).shelves.node b = s.shelves.node b := by
      intro b hb
      obtain ⟨-, -, -, -, hnext, hprev⟩ := hfields b hb
      show Links.mk (linkOf ((s.joinTags l a).tag b).prev) (linkOf ((s.joinTags l a).tag b).next) =
        Links.mk (linkOf (s.tag b).prev) (linkOf (s.tag b).next)
      rw [hnext, hprev]
    have hshelf : ∀ b, IsBlock area b → (s.joinTags l a).shelves.shelf b = s.shelves.shelf b :=
      fun b hb => congrArg shelfOf (hfields b hb).2.2.2.1
    have hhead : (s.joinTags l a).shelves.head = s.shelves.head := by
      have hstat := congrArg LibStatics.freePages
        (LibState.joinTags_statics (s := s) (l := l) (a := a))
      funext j
      exact congrArg linkOf (congrFun hstat j)
    have hcongr := shelved_congr h.shelved hhead hnode hshelf
    refine shelved_mono hcongr (fun b hb => ?_) fun b hb hn => ?_
    · rw [hblock b]
      refine ⟨fun hb => hb.2, fun hbb => ⟨?_, hbb⟩⟩
      rintro rfl
      rw [hshelf b hua.1] at hb
      exact hb hua.2
    · exact hcongr.off b ((hblock b).mp hb).2 hn
  · obtain ⟨b, hpb, hX, hb, hsize, hroom⟩ := h.live p n hp
    obtain ⟨-, hsz, hreal, -⟩ := hfields b hb.1
    have hba : b ≠ a := by
      rintro rfl
      exact hX ha
    have hbl : b ≠ l := by
      rintro rfl
      exact hX (hlX hb)
    refine ⟨b, hpb, fun hXb => hX hXb.2, (hused b).mpr ⟨hba, hb⟩, ?_, ?_⟩
    · rw [hsz]
      exact hsize
    · rw [hsz, hreal hbl]
      exact hroom
  · obtain ⟨hba, hb⟩ := (hused b).mp hb
    exact (h.owner b hb).imp_left fun hX => ⟨hba, hX⟩
  · exact (hused b).mpr ⟨hb.1, h.taken b hb.2⟩

/-! ## 5. One block becomes two -/

/-- The tag that `split_tag` makes. -/
def newTag (s : LibState ω) (a : Uptr) : Uptr :=
  a + SIZEOF_BOUNDARY_TAG + (s.tag a).size.setWidth 64

theorem toNat_newTag (h : LibCore spans blocks X area lists s) (hA : area a = some A)
    (hroom : 96 + (s.tag a).size.toNat ≤ (s.tag a).realSize.toNat) :
    (newTag s a).toNat = a.toNat + (48 + (s.tag a).size.toNat) := by
  obtain ⟨-, -, hend, -, htop⟩ := core_place h hA
  have hsize : ((s.tag a).size.setWidth 64 : U64).toNat = (s.tag a).size.toNat := by
    rw [BitVec.toNat_setWidth, Nat.mod_eq_of_lt (by omega)]
  unfold newTag
  rw [BitVec.toNat_add, toNat_payload h (isBlock_some hA), hsize, Nat.mod_eq_of_lt (by omega)]
  omega

theorem newTag_fresh (h : LibCore spans blocks X area lists s) (hA : area a = some A)
    (hroom : 96 + (s.tag a).size.toNat ≤ (s.tag a).realSize.toNat) :
    area (newTag s a) = none := by
  have hpos := toNat_newTag h hA hroom
  cases hn : area (newTag s a) with
  | none => rfl
  | some B =>
      have hne : a ≠ newTag s a := by
        intro he
        rw [← he] at hpos
        omega
      have hc : Clear a.toNat (s.tag a).realSize.toNat (newTag s a).toNat
          (s.tag (newTag s a)).realSize.toNat := h.tiling.apart a _ A B hA hn hne
      have hleast := (h.block _ B hn).least
      unfold Clear at hc
      omega

theorem split_headers (h : LibCore spans blocks X area lists s) (hA : area a = some A)
    (hroom : 96 + (s.tag a).size.toNat ≤ (s.tag a).realSize.toNat) :
    Headers (IsBlock (update area (newTag s a) (area a))) := by
  have hD := core_headers h
  have hpos := toNat_newTag h hA hroom
  have hold : ∀ {b}, IsBlock (update area (newTag s a) (area a)) b → b ≠ newTag s a →
      IsBlock area b := by
    intro b hb hbn
    unfold IsBlock at hb
    rw [update_of_ne hbn] at hb
    exact hb
  have hclear : ∀ {b}, IsBlock area b → b ≠ newTag s a →
      Clear (newTag s a).toNat 48 b.toNat 48 := by
    intro b hb _
    obtain ⟨B, hB⟩ := isBlock_area hb
    have hleast := (h.block b B hB).least
    unfold Clear
    by_cases hba : b = a
    · rw [hba]
      omega
    · have hc : Clear a.toNat (s.tag a).realSize.toNat b.toNat (s.tag b).realSize.toNat :=
        h.tiling.apart a b A B hA hB (Ne.symm hba)
      unfold Clear at hc
      omega
  refine ⟨fun b hb => ?_, fun b c hb hc hne => ?_⟩
  · by_cases hbn : b = newTag s a
    · rintro rfl
      rw [← hbn] at hpos
      have h0 : (0 : Uptr).toNat = 0 := rfl
      omega
    · exact hD.nonzero b (hold hb hbn)
  · by_cases hbn : b = newTag s a
    · have hcn : c ≠ newTag s a := fun he => hne (hbn.trans he.symm)
      rw [hbn]
      exact hclear (hold hc hcn) hcn
    · by_cases hcn : c = newTag s a
      · rw [hcn]
        exact (hclear (hold hb hbn) hbn).symm
      · exact hD.clear b c (hold hb hbn) (hold hc hcn) hne

/-- The tags after a block was cut in two. -/
structure SplitTags (area : Uptr → Option Extent) (s s' : LibState ω) (a : Uptr) (r : Nat) :
    Prop where
  magic : (s'.tag (newTag s a)).magic = LIBALLOC_MAGIC
  size : (s'.tag (newTag s a)).realSize = s.rest a
  shelf : shelfOf (s'.tag (newTag s a)).index = some r
  kept : (s'.tag a).realSize = (s.tag a).realSize - s.rest a
  sides : ∀ b, IsBlock (update area (newTag s a) (area a)) b →
    (s'.tiles (update area (newTag s a) (area a))).sides b =
      ((s.tiles area).split a (newTag s a) (48 + (s.tag a).size.toNat)).sides b
  complete : s'.completePages = s.completePages
  fields : ∀ b, IsBlock area b → (s'.tag b).magic = (s.tag b).magic ∧
    (s'.tag b).size = (s.tag b).size ∧ (s'.tag b).index = (s.tag b).index ∧
    (b ≠ a → (s'.tag b).realSize = (s.tag b).realSize)

/-- **A block of `X` is cut in two**; what is cut off is free. -/
theorem core_split (h : LibCore spans blocks X area lists s) (ha : X a) (hA : area a = some A)
    (hmod : (s.tag a).size.toNat % 8 = 0)
    (hroom : 96 + (s.tag a).size.toNat ≤ (s.tag a).realSize.toNat)
    (hr : binOf (s.rest a - SIZEOF_BOUNDARY_TAG.setWidth 32) = r) :
    LibCore spans blocks X (update area (newTag s a) (area a))
        (update lists r (newTag s a :: lists r)) (s.splitTag a) ∧
      BlocksKept blocks s.mem (s.splitTag a).mem ∧ SplitTags area s (s.splitTag a) a r := by
  have hua := h.taken a ha
  have hpos := toNat_newTag h hA hroom
  have hfresh := newTag_fresh h hA hroom
  have hD := split_headers h hA hroom
  have hcut := LibState.cuttable hD h.tiling hA hfresh
  obtain ⟨hrest, hkeep⟩ := LibState.toNat_rest (s := s) (a := a) (by omega)
  have hlt : r < 2 ^ 31 := hr ▸ Nat.lt_trans (binOf_bounds _).2.1 (by decide)
  have htag := h.block a A hA
  have hold : ∀ {b}, IsBlock area b → b ≠ newTag s a := by
    rintro b hb rfl
    exact hb hfresh
  have hblock : ∀ b, IsBlock (update area (newTag s a) (area a)) b ↔
      b = newTag s a ∨ IsBlock area b := by
    intro b
    unfold IsBlock
    by_cases hbn : b = newTag s a
    · rw [hbn, update_self]
      exact ⟨fun _ => .inl rfl, fun _ => hua.1⟩
    · rw [update_of_ne hbn]
      exact ⟨.inr, fun hb => hb.resolve_left hbn⟩
  -- the state between the cut and the last call
  have hs₁ : s.splitTag a = (s.cutTag a (newTag s a)).insertTag (newTag s a) (-1) := rfl
  have htags := fun b (hb : IsBlock (update area (newTag s a) (area a)) b) =>
    LibState.cutTag_tag hD hcut hb
  have hstat := LibState.cutTag_statics (s := s) (a := a) (n := newTag s a)
  have htiles := LibState.cutTag_tiles hD h.tiling hA hfresh (by omega) hpos
  have hsides := fun b (hb : IsBlock (update area (newTag s a) (area a)) b) =>
    LibState.cutTag_sides (k := 48 + (s.tag a).size.toNat) hD hcut hb
  have hoff := LibState.cutTag_sameOff hD hcut
  generalize s.cutTag a (newTag s a) = s₁ at hs₁ htags hstat htiles hsides hoff
  have hnew := htags _ hcut.new
  rw [if_pos rfl] at hnew
  have hother : ∀ b, IsBlock area b → (s₁.tag b).magic = (s.tag b).magic ∧
      (s₁.tag b).size = (s.tag b).size ∧ (s₁.tag b).index = (s.tag b).index ∧
      (s₁.tag b).next = (s.tag b).next ∧ (s₁.tag b).prev = (s.tag b).prev ∧
      (s₁.tag b).realSize = if b = a then (s.tag a).realSize - s.rest a
        else (s.tag b).realSize := by
    intro b hb
    rw [htags b ((hblock b).mpr (.inr hb)), if_neg (hold hb)]
    by_cases hba : b = a
    · rw [if_pos hba, if_pos hba, hba]
      exact ⟨rfl, rfl, rfl, rfl, rfl, rfl⟩
    · rw [if_neg hba, if_neg hba]
      split
      · exact ⟨rfl, rfl, rfl, rfl, rfl, rfl⟩
      · exact ⟨rfl, rfl, rfl, rfl, rfl, rfl⟩
  have hfree : ∀ j, s₁.freePages j = s.freePages j := fun j =>
    congrFun (congrArg LibStatics.freePages hstat) j
  have hshelved : Shelved s₁.shelves (IsBlock area) lists := by
    refine shelved_congr h.shelved (funext fun j => congrArg linkOf (hfree j)) (fun b hb => ?_)
      fun b hb => congrArg shelfOf (hother b hb).2.2.1
    obtain ⟨-, -, -, hnext, hprev, -⟩ := hother b hb
    show Links.mk (linkOf (s₁.tag b).prev) (linkOf (s₁.tag b).next) =
      Links.mk (linkOf (s.tag b).prev) (linkOf (s.tag b).next)
    rw [hnext, hprev]
  have hunlisted : ∀ j, newTag s a ∉ lists j := fun j hj =>
    ((h.shelved.member j _).mp hj).1 hfresh
  have hreal : s₁.realIndex (newTag s a) (-1) = r := by
    unfold LibState.realIndex
    rw [if_pos (by decide), hnew]
    exact hr
  have hhead : s₁.freePages r = 0 ∨ IsBlock (update area (newTag s a) (area a)) (s₁.freePages r) :=
    (LibState.head_listed hshelved).imp_right fun hm => (hblock _).mpr (.inr hm.1)
  have hne : s₁.freePages r ≠ newTag s a := by
    intro he
    rcases LibState.head_listed (i := r) hshelved with h0 | hm
    · exact hD.nonzero _ hcut.new (he.symm.trans h0)
    · exact hunlisted r (he ▸ hm.2)
  have hfields := fun b hb => insertTag_fields (b := b) hD hcut.new hreal hhead hne hb
  have hshelves := LibState.insertTag_shelves hD hblock hshelved hunlisted
    (by rw [hnew]) (by rw [hnew]) hreal hlt
  have hsame := LibState.insertTag_sameOff (-1) hcut.new (hreal.symm ▸ hhead)
  have hcomplete : (s₁.insertTag (newTag s a) (-1)).completePages = s.completePages := by
    rw [LibState.insertTag_statics]
    show s₁.completePages = s.completePages
    exact congrArg LibStatics.completePages hstat
  rw [hs₁]
  generalize s₁.insertTag (newTag s a) (-1) = s₂ at hfields hshelves hsame hcomplete
  have hsplit : SplitTags area s s₂ a r := by
    have hn := hfields _ hcut.new
    rw [hnew, if_pos rfl] at hn
    obtain ⟨hmagic, -, hsize, -, -, hindex⟩ := hn
    refine ⟨hmagic, hsize, ?_, ?_, fun b hb => ?_, hcomplete, fun b hb => ?_⟩
    · rw [hindex]
      exact shelfOf_ofNat hlt
    · rw [(hfields a hcut.mem).2.2.1, (hother a hua.1).2.2.2.2.2, if_pos rfl]
    · exact (sides_eq (hfields b hb).2.2.2.1 (hfields b hb).2.2.2.2.1).trans (hsides b hb)
    · have hf := hfields b ((hblock b).mpr (.inr hb))
      rw [if_neg (hold hb)] at hf
      have ho := hother b hb
      refine ⟨hf.1.trans ho.1, hf.2.1.trans ho.2.1, hf.2.2.2.2.2.trans ho.2.2.1, fun hba => ?_⟩
      rw [hf.2.2.1, ho.2.2.2.2.2, if_neg hba]
  have hused : ∀ b, Used (update area (newTag s a) (area a)) s₂ b ↔ Used area s b := by
    intro b
    refine ⟨fun hb => ?_, fun hb => ⟨(hblock b).mpr (.inr hb.1), ?_⟩⟩
    · rcases (hblock b).mp hb.1 with rfl | hbb
      · have hn := hb.2
        rw [hsplit.shelf] at hn
        cases hn
      · have hn := hb.2
        rw [(hsplit.fields b hbb).2.2.1] at hn
        exact ⟨hbb, hn⟩
    · rw [(hsplit.fields b hb.1).2.2.1]
      exact hb.2
  have hcore : LibCore spans blocks X (update area (newTag s a) (area a))
      (update lists r (newTag s a :: lists r)) s₂ := by
    refine ⟨tiling_tags htiles fun b hb => ⟨(hfields b hb).2.2.1, (hfields b hb).2.2.2.1,
      (hfields b hb).2.2.2.2.1⟩, fun b B hb => ?_, fun b B hb => ?_, fun p n hp => ?_, h.bound,
      hshelves, fun p n hp => ?_, fun b hb => h.owner b ((hused b).mp hb),
      fun b hb => (hused b).mpr (h.taken b hb)⟩
    · rcases (hblock b).mp (isBlock_some hb) with rfl | hbb
      · refine ⟨hsplit.magic, ?_, ?_⟩
        · rw [hsplit.size, hrest]
          omega
        · have h8 := htag.aligned
          omega
      · obtain ⟨C, hC⟩ := isBlock_area hbb
        have htagb := h.block b C hC
        obtain ⟨hmagic, -, -, hsize⟩ := hsplit.fields b hbb
        refine ⟨hmagic.trans htagb.magic, ?_, htagb.aligned⟩
        by_cases hba : b = a
        · rw [hba, hsplit.kept, hkeep]
          omega
        · rw [hsize hba]
          exact htagb.least
    · by_cases hbn : b = newTag s a
      · rw [hbn, update_self, hA] at hb
        exact h.span a B (hA.trans hb)
      · rw [update_of_ne hbn] at hb
        exact h.span b B hb
    · have hp' := h.base p n hp
      rw [update_of_ne (hold (isBlock_some hp'))]
      exact hp'
    · obtain ⟨b, hpb, hX, hb, hsize, hbroom⟩ := h.live p n hp
      obtain ⟨-, hsz, -, hreal⟩ := hsplit.fields b hb.1
      have hba : b ≠ a := by
        rintro rfl
        exact hX ha
      refine ⟨b, hpb, hX, (hused b).mpr hb, ?_, ?_⟩
      · rw [hsz]
        exact hsize
      · rw [hsz, hreal hba]
        exact hbroom
  exact ⟨hcore, kept_of_sameOff hcore (sameOff_trans hoff hsame), hsplit⟩

/-! ## 6. Spans of pages -/

/-- The bytes of the spans are the same. -/
def SpansKept (spans : Uptr → Option Nat) (m m' : Mem) : Prop :=
  ∀ q k, spans q = some k → ∀ y, q.toNat ≤ y → y < q.toNat + 4096 * k → m' y = m y

/-- A tag in a span that is kept. -/
theorem tag_spans {spans' : Uptr → Option Nat} (h : LibCore spans blocks X area lists s)
    (hb : area b = some A) (hspans : ∀ q k, A = pagesAt q k → spans q = some k → spans' q = some k)
    (hm : SpansKept spans' s.mem s'.mem) : s'.tag b = s.tag b := by
  obtain ⟨q, k, hq, rfl⟩ := h.span b A hb
  obtain ⟨-, hlow, hend, -⟩ := core_place h hb
  have hleast := (h.block b _ hb).least
  have hlow : q.toNat ≤ b.toNat := hlow
  have hend : b.toNat + (s.tag b).realSize.toNat ≤ q.toNat + 4096 * k := hend
  exact readTag_congr fun j hj => hm q k (hspans q k rfl hq) _ (by omega) (by omega)

theorem payload_spans {spans' : Uptr → Option Nat} (h : LibCore spans blocks X area lists s)
    (hspans : ∀ b A q k, Used area s b → ¬ X b → area b = some A → A = pagesAt q k →
      spans q = some k → spans' q = some k)
    (hm : SpansKept spans' s.mem s'.mem) : BlocksKept blocks s.mem s'.mem := by
  intro p n hp y hy
  obtain ⟨a, rfl, hX, hused, hsize, hroom⟩ := h.live p n hp
  obtain ⟨A, hA⟩ := isBlock_area hused.1
  obtain ⟨q, k, hq, rfl⟩ := h.span a A hA
  obtain ⟨-, hlow, hend, -⟩ := core_place h hA
  have hpos := toNat_payload h hused.1
  obtain ⟨hy₁, hy₂⟩ := hy
  have hlow : q.toNat ≤ a.toNat := hlow
  have hend : a.toNat + (s.tag a).realSize.toNat ≤ q.toNat + 4096 * k := hend
  exact hm q k (hspans a _ q k hused hX hA rfl hq) y (by omega) (by omega)

/-- The tag of `n` pages that are one block. -/
structure SpanTag (t : BoundaryTag) (n : Nat) : Prop where
  magic : t.magic = LIBALLOC_MAGIC
  realSize : t.realSize.toNat = 4096 * n
  index : t.index = -1
  splitLeft : t.splitLeft = 0
  splitRight : t.splitRight = 0
  next : t.next = 0
  prev : t.prev = 0

variable {k : Nat}

/-- **New pages are a block of `X`.** -/
theorem core_open (h : LibCore spans blocks X area lists s) (hbound : p ≠ 0 ∧ 16 ≤ k ∧
      4096 * k < 2 ^ 32 ∧ p.toNat + 4096 * k < 2 ^ 64) (haligned : p.toNat % 4096 = 0)
    (hnone : spans p = none)
    (hclear : ∀ q j, spans q = some j → Clear p.toNat (4096 * k) q.toNat (4096 * j))
    (hm : SpansKept spans s.mem s'.mem) (hfree : s'.freePages = s.freePages)
    (htag : SpanTag (s'.tag p) k) :
    LibCore (update spans p (some k)) blocks (fun b => b = p ∨ X b)
        (update area p (some (pagesAt p k))) lists s' ∧ BlocksKept blocks s.mem s'.mem ∧
      area p = none ∧ ∀ b, IsBlock area b → s'.tag b = s.tag b := by
  have hareap : area p = none := by
    cases ha : area p with
    | none => rfl
    | some A =>
        obtain ⟨q, j, hq, rfl⟩ := h.span p A ha
        obtain ⟨-, hlow, hend, -⟩ := core_place h ha
        have hleast := (h.block p _ ha).least
        have hc := hclear q j hq
        have hlow : q.toNat ≤ p.toNat := hlow
        have hend : p.toNat + (s.tag p).realSize.toNat ≤ q.toNat + 4096 * j := hend
        unfold Clear at hc
        omega
  have hold : ∀ {b}, IsBlock area b → b ≠ p := by
    rintro b hb rfl
    exact hb hareap
  have hsame : ∀ b, IsBlock area b → s'.tag b = s.tag b := by
    intro b hb
    obtain ⟨B, hB⟩ := isBlock_area hb
    exact tag_spans h hB (fun _ _ _ hq => hq) hm
  have hblock : ∀ b, IsBlock (update area p (some (pagesAt p k))) b ↔ b = p ∨ IsBlock area b := by
    intro b
    unfold IsBlock
    by_cases hbp : b = p
    · rw [hbp, update_self]
      exact ⟨fun _ => .inl rfl, fun _ => Option.some_ne_none _⟩
    · rw [update_of_ne hbp]
      exact ⟨.inr, fun hb => hb.resolve_left hbp⟩
  have hused : ∀ b, Used (update area p (some (pagesAt p k))) s' b ↔ b = p ∨ Used area s b := by
    intro b
    by_cases hbp : b = p
    · refine ⟨fun _ => .inl hbp, fun _ => ⟨(hblock b).mpr (.inl hbp), ?_⟩⟩
      rw [hbp, htag.index]
      exact shelfOf_taken
    · refine ⟨fun hb => .inr ⟨((hblock b).mp hb.1).resolve_left hbp, ?_⟩, fun hb => ?_⟩
      · rw [← hsame b (((hblock b).mp hb.1).resolve_left hbp)]
        exact hb.2
      · have hb := hb.resolve_left hbp
        refine ⟨(hblock b).mpr (.inr hb.1), ?_⟩
        rw [hsame b hb.1]
        exact hb.2
  refine ⟨⟨?_, fun b B hb => ?_, fun b B hb => ?_, fun q j hq => ?_, fun q j hq => ?_, ?_,
    fun q n hq => ?_, fun b hb => ?_, fun b hb => ?_⟩,
    payload_spans h (fun _ _ _ _ _ _ _ _ hq => hq) hm, hareap, hsame⟩
  · -- the tiling with the new area
    have hfar : ∀ b B, (s.tiles area).area b = some B →
        Clear (pagesAt p k).base (pagesAt p k).size B.base B.size := by
      intro b B hb
      obtain ⟨q, j, hq, rfl⟩ := h.span b B hb
      exact hclear q j hq
    have hpositive : 0 < (pagesAt p k).size := by
      show 0 < 4096 * k
      omega
    refine tiling_congr (tiling_opened h.tiling hareap rfl hpositive hfar) rfl (fun b B hb => ?_)
      fun b B hb => ?_
    · show (s'.tag b).realSize.toNat = update (fun c => (s.tag c).realSize.toNat) p (4096 * k) b
      by_cases hbp : b = p
      · rw [hbp, update_self]
        exact htag.realSize
      · rw [update_of_ne hbp, hsame b (((hblock b).mp (isBlock_some hb)).resolve_left hbp)]
    · show Links.mk (linkOf (s'.tag b).splitLeft) (linkOf (s'.tag b).splitRight) =
        update (s.tiles area).sides p ⟨none, none⟩ b
      by_cases hbp : b = p
      · rw [hbp, update_self, htag.splitLeft, htag.splitRight]
        rfl
      · rw [update_of_ne hbp, hsame b (((hblock b).mp (isBlock_some hb)).resolve_left hbp)]
        rfl
  · by_cases hbp : b = p
    · refine ⟨hbp ▸ htag.magic, ?_, ?_⟩
      · rw [hbp, htag.realSize]
        omega
      · rw [hbp]
        omega
    · have hbb := ((hblock b).mp (isBlock_some hb)).resolve_left hbp
      obtain ⟨C, hC⟩ := isBlock_area hbb
      have htagb := h.block b C hC
      rw [update_of_ne hbp] at hb
      refine ⟨?_, ?_, htagb.aligned⟩
      · rw [hsame b hbb]
        exact htagb.magic
      · rw [hsame b hbb]
        exact htagb.least
  · by_cases hbp : b = p
    · rw [hbp, update_self] at hb
      exact ⟨p, k, update_self .., (Option.some.inj hb).symm⟩
    · rw [update_of_ne hbp] at hb
      obtain ⟨q, j, hq, hB⟩ := h.span b B hb
      have hqp : q ≠ p := by
        rintro rfl
        rw [hnone] at hq
        cases hq
      exact ⟨q, j, by rw [update_of_ne hqp, hq], hB⟩
  · by_cases hqp : q = p
    · rw [hqp, update_self] at hq ⊢
      cases hq
      rfl
    · rw [update_of_ne hqp] at hq ⊢
      exact h.base q j hq
  · by_cases hqp : q = p
    · rw [hqp, update_self] at hq
      cases hq
      rw [hqp]
      exact hbound
    · rw [update_of_ne hqp] at hq
      exact h.bound q j hq
  · have hhead : s'.shelves.head = s.shelves.head := by
      funext j
      exact congrArg linkOf (congrFun hfree j)
    have hcongr : Shelved s'.shelves (IsBlock area) lists := by
      refine shelved_congr h.shelved hhead (fun b hb => ?_) fun b hb => ?_
      · show Links.mk (linkOf (s'.tag b).prev) (linkOf (s'.tag b).next) = _
        rw [hsame b hb]
        rfl
      · show shelfOf (s'.tag b).index = _
        rw [hsame b hb]
        rfl
    refine shelved_mono hcongr (fun b hb => ?_) fun b hb hn => ?_
    · rw [hblock b]
      refine or_iff_right ?_
      rintro rfl
      refine hb ?_
      show shelfOf (s'.tag b).index = none
      rw [htag.index]
      exact shelfOf_taken
    · rcases (hblock b).mp hb with rfl | hbb
      · show Links.mk (linkOf (s'.tag b).prev) (linkOf (s'.tag b).next) = _
        rw [htag.prev, htag.next]
        rfl
      · exact hcongr.off b hbb hn
  · obtain ⟨b, hqb, hX, hb, hsize, hroom⟩ := h.live q n hq
    refine ⟨b, hqb, ?_, (hused b).mpr (.inr hb), ?_, ?_⟩
    · rintro (rfl | hXb)
      · exact hold hb.1 rfl
      · exact hX hXb
    · rw [hsame b hb.1]
      exact hsize
    · rw [hsame b hb.1]
      exact hroom
  · rcases (hused b).mp hb with hbp | hb
    · exact .inl (.inl hbp)
    · exact (h.owner b hb).imp_left .inr
  · exact (hused b).mpr (hb.imp_right fun hX => h.taken b hX)

/-- A block without neighbours is a span. -/
theorem whole_span (h : LibCore spans blocks X area lists s) (hA : area a = some A)
    (hleft : (s.tag a).splitLeft = 0) (hright : (s.tag a).splitRight = 0) :
    ∃ k, spans a = some k ∧ A = pagesAt a k ∧ (s.tag a).realSize.toNat = 4096 * k := by
  obtain ⟨q, k, hq, rfl⟩ := h.span a A hA
  have hfirst : a.toNat = q.toNat := (h.tiling.first a _ hA).mp (linkOf_none.mpr hleft)
  have hlast : a.toNat + (s.tag a).realSize.toNat = q.toNat + 4096 * k :=
    (h.tiling.last a _ hA).mp (linkOf_none.mpr hright)
  obtain rfl : a = q := BitVec.eq_of_toNat_eq hfirst
  exact ⟨k, hq, rfl, by omega⟩

/-- **A block of `X` that is a whole span goes back.** -/
theorem core_close (h : LibCore spans blocks X area lists s) (ha : X a) (hA : area a = some A)
    (hleft : (s.tag a).splitLeft = 0) (hright : (s.tag a).splitRight = 0)
    (hm : SpansKept (update spans a none) s.mem s'.mem) (hfree : s'.freePages = s.freePages) :
    LibCore (update spans a none) blocks (fun b => b ≠ a ∧ X b) (update area a none) lists s' ∧
      BlocksKept blocks s.mem s'.mem ∧ ∀ b, IsBlock area b → b ≠ a → s'.tag b = s.tag b := by
  obtain ⟨k, hk, rfl, -⟩ := whole_span h hA hleft hright
  have hua := h.taken a ha
  -- the other blocks are in other spans
  have hfar : ∀ {b B}, area b = some B → b ≠ a → ∀ q j, B = pagesAt q j → spans q = some j →
      update spans a none q = some j := by
    intro b B hb hba q j hB hq
    have hqa : q ≠ a := by
      rintro rfl
      rw [hk] at hq
      cases hq
      obtain ⟨-, hlow, hend, -⟩ := core_place h hb
      have hc : Clear q.toNat (s.tag q).realSize.toNat b.toNat (s.tag b).realSize.toNat :=
        h.tiling.apart q b _ B hA hb (Ne.symm hba)
      have hlast := (h.tiling.last q _ hA).mp (linkOf_none.mpr hright)
      have hlast : q.toNat + (s.tag q).realSize.toNat = q.toNat + 4096 * k := hlast
      have hleast := (h.block b B hb).least
      rw [hB] at hlow hend
      have hlow : q.toNat ≤ b.toNat := hlow
      have hend : b.toNat + (s.tag b).realSize.toNat ≤ q.toNat + 4096 * k := hend
      unfold Clear at hc
      omega
    rw [update_of_ne hqa, hq]
  have hsame : ∀ b, IsBlock area b → b ≠ a → s'.tag b = s.tag b := by
    intro b hb hba
    obtain ⟨B, hB⟩ := isBlock_area hb
    exact tag_spans h hB (hfar hB hba) hm
  have hblock : ∀ b, IsBlock (update area a none) b ↔ b ≠ a ∧ IsBlock area b := by
    intro b
    unfold IsBlock
    by_cases hba : b = a
    · rw [hba, update_self]
      exact ⟨fun hn => absurd rfl hn, fun hn => absurd rfl hn.1⟩
    · rw [update_of_ne hba]
      exact ⟨fun hn => ⟨hba, hn⟩, fun hn => hn.2⟩
  have hold : ∀ {b B}, update area a none b = some B → b ≠ a ∧ area b = some B := by
    intro b B hb
    obtain ⟨hba, -⟩ := (hblock b).mp (isBlock_some hb)
    rw [update_of_ne hba] at hb
    exact ⟨hba, hb⟩
  have hused : ∀ b, Used (update area a none) s' b ↔ b ≠ a ∧ Used area s b := by
    intro b
    refine ⟨fun hb => ?_, fun hb => ?_⟩
    · obtain ⟨hba, hbb⟩ := (hblock b).mp hb.1
      have hidx := hb.2
      rw [hsame b hbb hba] at hidx
      exact ⟨hba, hbb, hidx⟩
    · refine ⟨(hblock b).mpr ⟨hb.1, hb.2.1⟩, ?_⟩
      rw [hsame b hb.2.1 hb.1]
      exact hb.2.2
  refine ⟨⟨?_, fun b B hb => ?_, fun b B hb => ?_, fun q j hq => ?_, fun q j hq => ?_, ?_,
    fun q n hq => ?_, fun b hb => ?_, fun b hb => ?_⟩,
    payload_spans h (fun b B q j hb hX hB => ?_) hm, hsame⟩
  · refine tiling_congr (tiling_closed h.tiling hA (linkOf_none.mpr hleft) (linkOf_none.mpr hright))
      rfl (fun b B hb => ?_) fun b B hb => ?_
    · obtain ⟨hba, hb⟩ := hold hb
      show (s'.tag b).realSize.toNat = (s.tag b).realSize.toNat
      rw [hsame b (isBlock_some hb) hba]
    · obtain ⟨hba, hb⟩ := hold hb
      show Links.mk (linkOf (s'.tag b).splitLeft) (linkOf (s'.tag b).splitRight) =
        Links.mk (linkOf (s.tag b).splitLeft) (linkOf (s.tag b).splitRight)
      rw [hsame b (isBlock_some hb) hba]
  · obtain ⟨hba, hb⟩ := hold hb
    have htagb := h.block b B hb
    refine ⟨?_, ?_, htagb.aligned⟩
    · rw [hsame b (isBlock_some hb) hba]
      exact htagb.magic
    · rw [hsame b (isBlock_some hb) hba]
      exact htagb.least
  · obtain ⟨hba, hb⟩ := hold hb
    obtain ⟨q, j, hq, hB⟩ := h.span b B hb
    exact ⟨q, j, hfar hb hba q j hB hq, hB⟩
  · by_cases hqa : q = a
    · rw [hqa, update_self] at hq
      cases hq
    · rw [update_of_ne hqa] at hq ⊢
      exact h.base q j hq
  · by_cases hqa : q = a
    · rw [hqa, update_self] at hq
      cases hq
    · rw [update_of_ne hqa] at hq
      exact h.bound q j hq
  · have hshelf : shelfOf (s.tag a).index = none := hua.2
    have hhead : s'.shelves.head = s.shelves.head := by
      funext j
      exact congrArg linkOf (congrFun hfree j)
    have hless : Shelved s.shelves (IsBlock (update area a none)) lists := by
      refine shelved_mono h.shelved (fun b hb => ?_) fun b hb hn =>
        h.shelved.off b ((hblock b).mp hb).2 hn
      rw [hblock b]
      refine ⟨fun hb => hb.2, fun hbb => ⟨?_, hbb⟩⟩
      rintro rfl
      exact hb hshelf
    refine shelved_congr hless hhead (fun b hb => ?_) fun b hb => ?_
    · obtain ⟨hba, hbb⟩ := (hblock b).mp hb
      show Links.mk (linkOf (s'.tag b).prev) (linkOf (s'.tag b).next) = _
      rw [hsame b hbb hba]
      rfl
    · obtain ⟨hba, hbb⟩ := (hblock b).mp hb
      show shelfOf (s'.tag b).index = _
      rw [hsame b hbb hba]
      rfl
  · obtain ⟨b, hqb, hX, hb, hsize, hroom⟩ := h.live q n hq
    have hba : b ≠ a := by
      rintro rfl
      exact hX ha
    refine ⟨b, hqb, fun hXb => hX hXb.2, (hused b).mpr ⟨hba, hb⟩, ?_, ?_⟩
    · rw [hsame b hb.1 hba]
      exact hsize
    · rw [hsame b hb.1 hba]
      exact hroom
  · obtain ⟨hba, hb⟩ := (hused b).mp hb
    exact (h.owner b hb).imp_left fun hX => ⟨hba, hX⟩
  · exact (hused b).mpr ⟨hb.1, h.taken b hb.2⟩
  · refine hfar hB ?_ q j
    rintro rfl
    exact hX ha

/-! ## 7. Blocks of the callers -/

/-- The size of a block of `X` is written. -/
theorem core_size (h : LibCore spans blocks X area lists s) (ha : X a) (z : U32) :
    LibCore spans blocks X area lists (s.modTag a fun t => { t with size := z }) ∧
      BlocksKept blocks s.mem (s.modTag a fun t => { t with size := z }).mem := by
  have hD := core_headers h
  have hua := h.taken a ha
  have htag : ∀ b, IsBlock area b → (s.modTag a fun t => { t with size := z }).tag b =
      if b = a then { s.tag a with size := z } else s.tag b := fun b hb =>
    LibState.tag_modTag hD hua.1 hb
  have hoff := LibState.sameOff_modTag (s := s) (f := fun t => { t with size := z }) hua.1
  have hstat : (s.modTag a fun t => { t with size := z }).toLibStatics = s.toLibStatics := rfl
  generalize (s.modTag a fun t => { t with size := z }) = s₁ at htag hoff hstat ⊢
  have hfields : ∀ b, IsBlock area b → (s₁.tag b).magic = (s.tag b).magic ∧
      (s₁.tag b).realSize = (s.tag b).realSize ∧ (s₁.tag b).splitLeft = (s.tag b).splitLeft ∧
      (s₁.tag b).splitRight = (s.tag b).splitRight ∧ (s₁.tag b).index = (s.tag b).index ∧
      (s₁.tag b).next = (s.tag b).next ∧ (s₁.tag b).prev = (s.tag b).prev ∧
      (b ≠ a → (s₁.tag b).size = (s.tag b).size) := by
    intro b hb
    rw [htag b hb]
    split
    · rename_i hba
      rw [hba]
      exact ⟨rfl, rfl, rfl, rfl, rfl, rfl, rfl, fun hne => absurd rfl hne⟩
    · exact ⟨rfl, rfl, rfl, rfl, rfl, rfl, rfl, fun _ => rfl⟩
  have hused : ∀ b, Used area s₁ b ↔ Used area s b := by
    intro b
    refine and_congr_right fun hb => ?_
    rw [(hfields b hb).2.2.2.2.1]
  refine ⟨⟨tiling_tags h.tiling fun b hb => ⟨(hfields b hb).2.1, (hfields b hb).2.2.1,
    (hfields b hb).2.2.2.1⟩, fun b B hb => ?_, h.span, h.base, h.bound, ?_, fun p n hp => ?_,
    fun b hb => h.owner b ((hused b).mp hb), fun b hb => (hused b).mpr (h.taken b hb)⟩,
    kept_of_sameOff h hoff⟩
  · have htagb := h.block b B hb
    obtain ⟨hmagic, hreal, -⟩ := hfields b (isBlock_some hb)
    refine ⟨hmagic.trans htagb.magic, ?_, htagb.aligned⟩
    rw [hreal]
    exact htagb.least
  · refine shelved_congr h.shelved ?_ (fun b hb => ?_) fun b hb => ?_
    · funext j
      exact congrArg linkOf (congrFun (congrArg LibStatics.freePages hstat) j)
    · obtain ⟨-, -, -, -, -, hnext, hprev, -⟩ := hfields b hb
      show Links.mk (linkOf (s₁.tag b).prev) (linkOf (s₁.tag b).next) =
        Links.mk (linkOf (s.tag b).prev) (linkOf (s.tag b).next)
      rw [hnext, hprev]
    · exact congrArg shelfOf (hfields b hb).2.2.2.2.1
  · obtain ⟨b, hpb, hX, hb, hsize, hroom⟩ := h.live p n hp
    have hba : b ≠ a := by
      rintro rfl
      exact hX ha
    obtain ⟨-, hreal, -, -, -, -, -, hsz⟩ := hfields b hb.1
    refine ⟨b, hpb, hX, (hused b).mpr hb, ?_, ?_⟩
    · rw [hsz hba]
      exact hsize
    · rw [hsz hba, hreal]
      exact hroom

theorem add_tag_inj (h : a + SIZEOF_BOUNDARY_TAG = b + SIZEOF_BOUNDARY_TAG) : a = b := by
  have hsub := congrArg (· - SIZEOF_BOUNDARY_TAG) h
  rwa [BitVec.add_sub_cancel, BitVec.add_sub_cancel] at hsub

/-- **A block of `X` goes to a caller.** -/
theorem core_grant (h : LibCore spans blocks X area lists s) (ha : X a)
    (hsize : n.toNat ≤ (s.tag a).size.toNat)
    (hroom : 48 + (s.tag a).size.toNat ≤ (s.tag a).realSize.toNat) :
    LibCore spans (update blocks (a + SIZEOF_BOUNDARY_TAG) (some n)) (fun b => b ≠ a ∧ X b) area
      lists s := by
  refine ⟨h.tiling, h.block, h.span, h.base, h.bound, h.shelved, fun p k hp => ?_, fun b hb => ?_,
    fun b hb => h.taken b hb.2⟩
  · by_cases hpa : p = a + SIZEOF_BOUNDARY_TAG
    · rw [hpa, update_self] at hp
      cases hp
      exact ⟨a, hpa, fun hX => hX.1 rfl, h.taken a ha, hsize, hroom⟩
    · rw [update_of_ne hpa] at hp
      obtain ⟨b, hpb, hX, hb⟩ := h.live p k hp
      exact ⟨b, hpb, fun hXb => hX hXb.2, hb⟩
  · by_cases hba : b = a
    · rw [hba]
      exact .inr ⟨n, update_self ..⟩
    · rw [update_of_ne fun he => hba (add_tag_inj he)]
      exact (h.owner b hb).imp_left fun hX => ⟨hba, hX⟩

/-- **A block of a caller is taken back.** -/
theorem core_revoke (h : LibCore spans blocks X area lists s) (hp : blocks p = some n) :
    ∃ a, p = a + SIZEOF_BOUNDARY_TAG ∧ Used area s a ∧
      LibCore spans (update blocks p none) (fun b => b = a ∨ X b) area lists s := by
  obtain ⟨a, rfl, hX, hua, hsize, hroom⟩ := h.live p n hp
  refine ⟨a, rfl, hua, h.tiling, h.block, h.span, h.base, h.bound, h.shelved, fun q k hq => ?_,
    fun b hb => ?_, fun b hb => ?_⟩
  · by_cases hqa : q = a + SIZEOF_BOUNDARY_TAG
    · rw [hqa, update_self] at hq
      cases hq
    · rw [update_of_ne hqa] at hq
      obtain ⟨b, hqb, hXb, hb⟩ := h.live q k hq
      refine ⟨b, hqb, ?_, hb⟩
      rintro (rfl | hXb')
      · exact hqa hqb
      · exact hXb hXb'
  · by_cases hba : b = a
    · exact .inl (.inl hba)
    · rw [update_of_ne fun he => hba (add_tag_inj he)]
      exact (h.owner b hb).imp_left .inr
  · rcases hb with rfl | hb
    · exact hua
    · exact h.taken b hb

end Core

end Slightx
