/-
  File:      Slightx/Mem/VmmTranslate.lean
  Subject:   `vmm_translate` and `vmm_is_mapped` against the walk of the processor.

  Both functions of the source unroll one lookup, by hand and with a mask for the offset at each
  level. `srcKind` is the view of an entry the unrolled code takes:

  * `walker_step`, `walker_last` -- one level of either function is one level of `look`;
  * `srcLook_eq` -- on a well-formed page map this lookup ends where the walk of the processor ends;
  * `leafAddress_one`, … -- which masks give the address of the leaf.

  The mask at level 3 is that of a 2 MB page, and bit 12 of a large leaf, where the processor has
  the page attribute bit, is taken for an address bit. Hence the condition of
  `vmmTranslate_iff`.
-/
import Slightx.Mem.Walk
import Slightx.Lib.Bits

namespace Slightx

open Lib

/-! ## 1. Well-formed page maps -/

/-- Every present entry below table `t` of level `L` has an address below 2^48, and large leaves
    stand at levels 2 and 3 with their reserved bits clear. -/
def WellFormed (m : Mem) : (L : Nat) → (t : Uptr) → Prop
  | 0, _ => True
  | L + 1, t => ∀ i, i < 512 → ptePresent (pteAt m t i) = true →
      (pteAt m t i).toNat / 2 ^ 48 % 16 = 0 ∧
      (0 < L →
        if pteLarge (pteAt m t i) then L + 1 ≤ 3 ∧ ReservedClear (L + 1) (pteAt m t i)
        else WellFormed m L (hwTable (pteAt m t i)))

/-- The entry as the code reads it: a leaf is kept with its level. -/
def srcKind (L : Nat) (e : U64) : Kind Uptr (U64 × Nat) :=
  if !ptePresent e then .absent
  else if L = 1 ∨ pteLarge e = true then .leaf (e, L)
  else .next (pteP2v e) id

/-- The lookup the code unrolls. -/
abbrev srcLook (m : Mem) (key L : Nat) (t : Uptr) : Option (U64 × Nat) :=
  look 512 srcKind (pteAt m) key L t

/-- Below 2^48 the code and the processor find the same table. -/
theorem pteP2v_eq_hwTable {e : U64} (he : e.toNat / 2 ^ 48 % 16 = 0) : pteP2v e = hwTable e := by
  apply BitVec.eq_of_toNat_eq
  unfold pteP2v hwTable
  rw [toNat_and_field 12 36 rfl, toNat_and_field 12 40 rfl]
  omega

section SrcKind

variable {L : Nat} {e : U64}

theorem srcKind_absent (hp : ptePresent e = false) : srcKind L e = .absent := by
  unfold srcKind
  rw [hp]
  rfl

theorem srcKind_leaf (hp : ptePresent e = true) (hl : L = 1 ∨ pteLarge e = true) :
    srcKind L e = .leaf (e, L) := by
  unfold srcKind
  rw [hp, if_neg (by decide), if_pos hl]

theorem srcKind_table (hp : ptePresent e = true) (hl : pteLarge e = false) (hL : L ≠ 1) :
    srcKind L e = .next (pteP2v e) id := by
  unfold srcKind
  rw [hp, if_neg (by decide), if_neg (by simp [hL, hl])]

end SrcKind

/-- **On a well-formed page map both lookups end at one leaf.** -/
theorem srcLook_eq {m : Mem} (key : Nat) {L : Nat} {t : Uptr} (h : WellFormed m L t) :
    srcLook m key L t = (walk m key L t).map fun hit => (hit.entry, hit.level) := by
  induction L generalizing t with
  | zero => rfl
  | succ L ih =>
      have hi : key / 512 ^ L % 512 < 512 := Nat.mod_lt _ (by decide)
      rw [srcLook, walk, look, look]
      cases hp : ptePresent (pteAt m t (key / 512 ^ L % 512)) with
      | false =>
          rw [srcKind_absent hp, pageKind_absent hp]
          rfl
      | true =>
          obtain ⟨haddr, hnext⟩ := h _ hi hp
          by_cases hL : L = 0
          · subst hL
            rw [srcKind_leaf hp (Or.inl rfl), pageKind_one hp]
            rfl
          have hnext := hnext (by omega)
          cases hl : pteLarge (pteAt m t (key / 512 ^ L % 512)) with
          | true =>
              rw [if_pos hl] at hnext
              rw [srcKind_leaf hp (Or.inr hl), pageKind_large hp hl (by omega) hnext.2]
              rfl
          | false =>
              rw [if_neg (by simp [hl])] at hnext
              rw [srcKind_table hp hl (by omega), pageKind_table hp hl (by omega),
                pteP2v_eq_hwTable haddr]
              show (srcLook m key L _).map id = _
              rw [Option.map_id_fun, id, ih hnext]
              show _ = ((walk m key L _).map _).map _
              rw [Option.map_map]
              rfl

/-! ## 2. The unrolled walkers -/

section Walkers

variable {α : Type} (s : VmmState)

/-- What the answer of a walker owes to the lookup: nothing is written, and the answer is the one
    `R` allows. -/
def Answers (R : Option (U64 × Nat) → Except Fault α → Prop) (o : Option (U64 × Nat))
    (x : Prog Fault VmmState α) : Prop :=
  ∃ r, R o r ∧ x s = r.map fun a => (a, s)

variable {s} {R : Option (U64 × Nat) → Except Fault α → Prop} {key : Nat}

theorem answers_load {o : Option (U64 × Nat)} {t : Uptr} {i : Nat}
    {f : U64 → Prog Fault VmmState α} (h : Answers s R o (f (pteAt s.mem t i))) :
    Answers s R o (pdLoad t i >>= f) := h

/-- **One level of a walker.** -/
theorem walker_step {L i : Nat} {t : Uptr} {no : Prog Fault VmmState α}
    {yes : U64 → Prog Fault VmmState α} {next : Uptr → Prog Fault VmmState α}
    (hL : 1 ≤ L) (hi : i = key / 512 ^ L % 512) (hno : Answers s R none no)
    (hyes : ∀ e, Answers s R (some (e, L + 1)) (yes e))
    (hnext : ∀ u, Answers s R (srcLook s.mem key L u) (next u)) :
    Answers s R (srcLook s.mem key (L + 1) t) (do
      let e ← pdLoad t i
      if !ptePresent e then no
      else if pteLarge e then yes e
      else next (pteP2v e)) := by
  refine answers_load ?_
  subst hi
  rw [srcLook, look]
  cases hp : ptePresent (pteAt s.mem t (key / 512 ^ L % 512)) with
  | false =>
      rw [srcKind_absent hp]
      exact hno
  | true =>
      cases hl : pteLarge (pteAt s.mem t (key / 512 ^ L % 512)) with
      | true =>
          rw [srcKind_leaf hp (Or.inr hl)]
          exact hyes _
      | false =>
          rw [srcKind_table hp hl (by omega)]
          show Answers s R ((srcLook s.mem key L _).map id) _
          rw [Option.map_id_fun]
          exact hnext _

/-- The last level of a walker. -/
theorem walker_last {i : Nat} {t : Uptr} {no : Prog Fault VmmState α}
    {yes : U64 → Prog Fault VmmState α} (hi : i = key / 512 ^ 0 % 512)
    (hno : Answers s R none no) (hyes : ∀ e, Answers s R (some (e, 1)) (yes e)) :
    Answers s R (srcLook s.mem key 1 t) (do
      let e ← pdLoad t i
      if !ptePresent e then no else yes e) := by
  refine answers_load ?_
  subst hi
  rw [srcLook, look]
  cases hp : ptePresent (pteAt s.mem t (key / 512 ^ 0 % 512)) with
  | false =>
      rw [srcKind_absent hp]
      exact hno
  | true =>
      rw [srcKind_leaf hp (Or.inl rfl)]
      exact hyes _

end Walkers

/-- The offset mask of the code at each level. -/
def offsetMask (L : Nat) : U64 :=
  if L = 1 then MM_PAGE_4KB - 1 else if L ≤ 3 then MM_PAGE_2MB - 1 else MM_PAGE_1GB - 1

/-- The answers of `vmm_translate`: the masked address of the leaf, or a panic. -/
def Translation (va : Uptr) : Option (U64 × Nat) → Except Fault Uptr → Prop
  | some (e, L), r => r = .ok (leafAddress e (offsetMask L) va)
  | none, r => ∃ text, r = .error (.panic text)

/-- The answers of `vmm_is_mapped`. -/
def Mapped (o : Option (U64 × Nat)) (r : Except Fault Bool) : Prop := r = .ok o.isSome

theorem answers_pure {α : Type} {s : VmmState} {R : Option (U64 × Nat) → Except Fault α → Prop}
    {o : Option (U64 × Nat)} {a : α} (h : R o (.ok a)) : Answers s R o (pure a) :=
  ⟨.ok a, h, rfl⟩

theorem answers_panic (s : VmmState) (va : Uptr) (text : String) :
    Answers s (Translation va) none (panic text) :=
  ⟨.error (.panic text), ⟨text, rfl⟩, rfl⟩

section Unrolled

variable (s : VmmState) (va : Uptr) {top : Nat}

theorem answers_vmmTranslateFrom (ht : top = 4 ∨ top = 5) (pml4 : Uptr) :
    Answers s (Translation va) (srcLook s.mem (pageNumber top va) 4 pml4)
      (vmmTranslateFrom pml4 va) :=
  walker_step (by decide) (pml4Index_eq va ht) (answers_panic s va _)
    (fun _ => answers_pure rfl) fun _ =>
  walker_step (by decide) (pml3Index_eq va ht) (answers_panic s va _)
    (fun _ => answers_pure rfl) fun _ =>
  walker_step (by decide) (pml2Index_eq va ht) (answers_panic s va _)
    (fun _ => answers_pure rfl) fun _ =>
  walker_last (pml1Index_eq va ht) (answers_panic s va _) fun _ => answers_pure rfl

theorem answers_vmmIsMappedFrom (ht : top = 4 ∨ top = 5) (pml4 : Uptr) :
    Answers s Mapped (srcLook s.mem (pageNumber top va) 4 pml4) (vmmIsMappedFrom pml4 va) :=
  walker_step (by decide) (pml4Index_eq va ht) (answers_pure rfl)
    (fun _ => answers_pure rfl) fun _ =>
  walker_step (by decide) (pml3Index_eq va ht) (answers_pure rfl)
    (fun _ => answers_pure rfl) fun _ =>
  walker_step (by decide) (pml2Index_eq va ht) (answers_pure rfl)
    (fun _ => answers_pure rfl) fun _ =>
  walker_last (pml1Index_eq va ht) (answers_pure rfl) fun _ => answers_pure rfl

end Unrolled

section Questions

variable (s : VmmState) (va : Uptr) {pmap : PageMap}

/-- **`vmm_translate` answers the lookup.** -/
theorem answers_vmmTranslate (hl : pmap.level = .PML4 ∨ pmap.level = .PML5) :
    Answers s (Translation va)
      (srcLook s.mem (pageNumber pmap.level.num va) pmap.level.num pmap.directory)
      (vmmTranslate pmap va) := by
  unfold vmmTranslate vmmTranslateImpl
  rcases hl with hl | hl
  · rw [hl]
    exact answers_vmmTranslateFrom s va (Or.inl rfl) _
  · rw [hl]
    exact walker_step (by decide) (pml5Index_eq va) (answers_panic s va _)
      (fun _ => answers_pure rfl) fun u => answers_vmmTranslateFrom s va (Or.inr rfl) u

/-- **`vmm_is_mapped` answers the lookup.** -/
theorem answers_vmmIsMapped (hl : pmap.level = .PML4 ∨ pmap.level = .PML5) :
    Answers s Mapped
      (srcLook s.mem (pageNumber pmap.level.num va) pmap.level.num pmap.directory)
      (vmmIsMapped pmap va) := by
  unfold vmmIsMapped vmmIsMappedImpl
  rcases hl with hl | hl
  · rw [hl]
    exact answers_vmmIsMappedFrom s va (Or.inl rfl) _
  · rw [hl]
    exact walker_step (by decide) (pml5Index_eq va) (answers_pure rfl)
      (fun _ => answers_pure rfl) fun u => answers_vmmIsMappedFrom s va (Or.inr rfl) u

end Questions

/-! ## 3. The address of the leaf -/

/-- A leaf in a well-formed page map. -/
structure LeafOk (e : U64) (L : Nat) : Prop where
  low : e.toNat / 2 ^ 48 % 16 = 0
  level : 1 ≤ L ∧ L ≤ 3
  reserved : L ≠ 1 → ReservedClear L e

/-- The walk of a well-formed page map ends at well-formed leaves. -/
theorem leafOk_of_walk {m : Mem} {key L : Nat} {t : Uptr} (h : WellFormed m L t) {hit : Hit}
    (hw : walk m key L t = some hit) : LeafOk hit.entry hit.level := by
  induction L generalizing t hit with
  | zero => cases hw
  | succ L ih =>
      have hi : key / 512 ^ L % 512 < 512 := Nat.mod_lt _ (by decide)
      rw [walk, look] at hw
      cases hp : ptePresent (pteAt m t (key / 512 ^ L % 512)) with
      | false =>
          rw [pageKind_absent hp] at hw
          cases hw
      | true =>
          obtain ⟨haddr, hnext⟩ := h _ hi hp
          by_cases hL : L = 0
          · subst hL
            rw [pageKind_one hp] at hw
            cases hw
            exact ⟨haddr, ⟨Nat.le_refl 1, by simp [Hit.leaf]⟩, fun h1 => absurd rfl h1⟩
          have hnext := hnext (by omega)
          cases hl : pteLarge (pteAt m t (key / 512 ^ L % 512)) with
          | true =>
              rw [if_pos hl] at hnext
              rw [pageKind_large hp hl (by omega) hnext.2] at hw
              cases hw
              exact ⟨haddr, ⟨by simp [Hit.leaf], hnext.1⟩, fun _ => hnext.2⟩
          | false =>
              rw [if_neg (by simp [hl])] at hnext
              rw [pageKind_table hp hl (by omega)] at hw
              obtain ⟨sub, hsub, rfl⟩ := Option.map_eq_some_iff.mp hw
              have hleaf := ih hnext hsub
              exact hleaf

section Leaf

variable {e : U64} (va : U64)

/-- The masked address as a number. -/
theorem toNat_leafAddress {k : Nat} (L : Nat) (hm : (offsetMask L).toNat = 2 ^ k - 1) :
    (leafAddress e (offsetMask L) va).toNat =
      e.toNat / 2 ^ 12 % 2 ^ 36 * 2 ^ 12 ||| va.toNat % 2 ^ k := by
  unfold leafAddress
  rw [BitVec.toNat_or, toNat_and_field 12 36 rfl, toNat_and_low hm]

theorem leafAddress_one (he : LeafOk e 1) :
    (leafAddress e (offsetMask 1) va).toNat = (Hit.leaf 1 e).pa va := by
  have hlow := he.low
  rw [toNat_leafAddress va 1 (k := 12) rfl, or_eq_add (i := 12) (by omega) (by omega)]
  simp only [Hit.pa, Hit.leaf, pageBytes]
  omega

/-- The address of a large leaf: bit 12 is kept, and the offset is that of 2 MB. -/
theorem leafAddress_large {L : Nat} (he : LeafOk e L) (hL : L = 2 ∨ L = 3) :
    (leafAddress e (offsetMask L) va).toNat =
      e.toNat % 2 ^ 52 / pageBytes L * pageBytes L +
        (e.toNat / 2 ^ 12 % 2 * 2 ^ 12 ||| va.toNat % 2 ^ 21) := by
  have hlow := he.low
  have hres := he.reserved (by omega)
  have hmask : (offsetMask L).toNat = 2 ^ 21 - 1 := by rcases hL with rfl | rfl <;> rfl
  have hor : e.toNat / 2 ^ 12 % 2 * 2 ^ 12 ||| va.toNat % 2 ^ 21 < 2 ^ 21 :=
    Nat.or_lt_two_pow (by omega) (by omega)
  have hsplit : e.toNat / 2 ^ 12 % 2 ^ 36 * 2 ^ 12 =
      e.toNat % 2 ^ 52 / pageBytes L * pageBytes L ||| e.toNat / 2 ^ 12 % 2 * 2 ^ 12 := by
    unfold ReservedClear at hres
    rcases hL with rfl | rfl
    · rw [or_eq_add (i := 21)]
      all_goals simp only [pageBytes] at *
      all_goals omega
    · rw [or_eq_add (i := 30)]
      all_goals simp only [pageBytes] at *
      all_goals omega
  rw [toNat_leafAddress va L hmask, hsplit, Nat.or_assoc, or_eq_add (i := 21) _ hor]
  rcases hL with rfl | rfl
  all_goals simp only [pageBytes]
  all_goals omega

end Leaf

/-! ## 4. When the code agrees with the processor -/

/-- The leaf and the address for which the code's masks do no harm: the page attribute bit of a
    large leaf is clear or bit 12 of the address is set, and in a 1 GB page the address lies in
    the first 2 MB. -/
def LeafExact (h : Hit) (va : U64) : Prop :=
  h.level = 1 ∨
    ((h.entry.getLsbD 12 = true → va.getLsbD 12 = true) ∧
      (h.level = 2 ∨ va.toNat % 2 ^ 30 < 2 ^ 21))

/-- The masked address is the address of the leaf exactly there. -/
theorem leafAddress_eq_iff {h : Hit} {va : U64} (he : LeafOk h.entry h.level) :
    (leafAddress h.entry (offsetMask h.level) va).toNat = h.pa va ↔ LeafExact h va := by
  obtain ⟨e, L, u, w, nx⟩ := h
  obtain ⟨h1, h3⟩ := he.level
  unfold LeafExact
  by_cases hL : L = 1
  · subst hL
    exact ⟨fun _ => Or.inl rfl, fun _ => leafAddress_one va he⟩
  have hL' : L = 2 ∨ L = 3 := by simp only at h1 h3; omega
  have hpat : e.getLsbD 12 = e.toNat.testBit 12 := rfl
  have hva : va.getLsbD 12 = (va.toNat % 2 ^ 21).testBit 12 := by
    rw [Nat.testBit_mod_two_pow]
    rfl
  have hor : e.toNat / 2 ^ 12 % 2 * 2 ^ 12 ||| va.toNat % 2 ^ 21 < 2 ^ 21 :=
    Nat.or_lt_two_pow (by omega) (by omega)
  -- bit 12 taken for an address bit adds nothing exactly if it is clear or already set
  have hbit : (e.toNat / 2 ^ 12 % 2 * 2 ^ 12 ||| va.toNat % 2 ^ 21) = va.toNat % 2 ^ 21 ↔
      (e.getLsbD 12 = true → va.getLsbD 12 = true) := by
    rw [hpat, hva, Nat.testBit_eq_decide_div_mod_eq]
    rcases Nat.mod_two_eq_zero_or_one (e.toNat / 2 ^ 12) with h0 | h0
    · rw [h0]
      simp
    · rw [h0, Nat.one_mul, or_pow_eq_self_iff]
      simp
  rw [leafAddress_large va he hL']
  simp only [Hit.pa, hL, false_or]
  rw [Nat.add_left_cancel_iff, ← hbit]
  rcases hL' with rfl | rfl
  · exact ⟨fun h => ⟨h, Or.inl rfl⟩, fun h => h.1⟩
  · have hpage : pageBytes 3 = 2 ^ 30 := by decide
    rw [hpage]
    constructor
    · intro h
      rw [h] at hor ⊢
      exact ⟨by omega, Or.inr hor⟩
    · intro h
      obtain ⟨h, hlow⟩ := h
      rw [h]
      omega

/-- **What the two questions are for**: an address is mapped exactly if the walk of the processor
    succeeds, and then its translation is the address of the walk; otherwise asking for the
    translation panics. -/
def TranslateSpec (s : VmmState) (pmap : PageMap) (va : U64) : Prop :=
  match resolve s.mem pmap va with
  | some pa => vmmIsMapped pmap va s = .ok (true, s) ∧
      ∃ a, vmmTranslate pmap va s = .ok (a, s) ∧ a.toNat = pa
  | none => vmmIsMapped pmap va s = .ok (false, s) ∧
      ∃ text, Stops (vmmTranslate pmap va) s (.panic text)

/-- The two questions where the walk fails. -/
theorem translateSpec_none {s : VmmState} {pmap : PageMap} {va : U64}
    (hl : pmap.level = .PML4 ∨ pmap.level = .PML5)
    (hwf : WellFormed s.mem pmap.level.num pmap.directory) (hw : hwWalk s.mem pmap va = none) :
    TranslateSpec s pmap va := by
  have hsrc := srcLook_eq (pageNumber pmap.level.num va) hwf
  rw [show walk _ _ _ _ = _ from hw] at hsrc
  obtain ⟨r, hr, hm⟩ := answers_vmmIsMapped s va hl
  obtain ⟨r', hr', ht⟩ := answers_vmmTranslate s va hl
  rw [hsrc] at hr hr'
  obtain ⟨text, rfl⟩ := hr'
  cases hr
  unfold TranslateSpec resolve
  rw [hw]
  exact ⟨hm, text, ht⟩

/-- The two questions where the walk succeeds. -/
theorem translateSpec_some {s : VmmState} {pmap : PageMap} {va : U64} {h : Hit}
    (hl : pmap.level = .PML4 ∨ pmap.level = .PML5)
    (hwf : WellFormed s.mem pmap.level.num pmap.directory) (hw : hwWalk s.mem pmap va = some h) :
    TranslateSpec s pmap va ↔ LeafExact h va := by
  have hsrc := srcLook_eq (pageNumber pmap.level.num va) hwf
  rw [show walk _ _ _ _ = _ from hw] at hsrc
  obtain ⟨r, hr, hm⟩ := answers_vmmIsMapped s va hl
  obtain ⟨r', hr', ht⟩ := answers_vmmTranslate s va hl
  rw [hsrc] at hr hr'
  rw [← leafAddress_eq_iff (leafOk_of_walk hwf hw)]
  cases hr
  cases hr'
  unfold TranslateSpec resolve
  rw [hw]
  constructor
  · intro hspec
    obtain ⟨_, a, ha, hpa⟩ := hspec
    rw [ht] at ha
    cases ha
    exact hpa
  · intro hpa
    exact ⟨hm, _, ht, hpa⟩

/-- Where the masks do no harm, the questions are answered as they should be. -/
theorem translateSpec_exact {s : VmmState} {pmap : PageMap}
    (hl : pmap.level = .PML4 ∨ pmap.level = .PML5)
    (hwf : WellFormed s.mem pmap.level.num pmap.directory) {va : U64}
    (hex : ∀ h, hwWalk s.mem pmap va = some h → LeafExact h va) : TranslateSpec s pmap va := by
  cases hw : hwWalk s.mem pmap va with
  | none => exact translateSpec_none hl hwf hw
  | some h => exact (translateSpec_some hl hwf hw).mpr (hex h hw)

/-- **When the questions are answered as they should be**: exactly if the masks do no harm at the
    leaf the walk reaches. -/
theorem vmmTranslate_iff {s : VmmState} {pmap : PageMap}
    (hl : pmap.level = .PML4 ∨ pmap.level = .PML5)
    (hwf : WellFormed s.mem pmap.level.num pmap.directory) (va : U64) :
    TranslateSpec s pmap va ↔ ∀ h, hwWalk s.mem pmap va = some h → LeafExact h va := by
  refine ⟨fun hspec h hw => ?_, translateSpec_exact hl hwf⟩
  exact (translateSpec_some hl hwf hw).mp hspec

/-! ## 5. A page map with a 1 GB leaf -/

/-- Two tables: the first 1 GB of addresses is one leaf at the second gigabyte of memory. -/
def gigabyteMap : VmmState :=
  { mem := store64 (store64 (fun _ => 0) 0x1000 0x2003) 0x2000 0x40000083
    free := [] }

def gigabytePageMap : PageMap := { level := .PML4, directory := 0x1000 }

theorem pteAt_gigabyteMap_dir {i : Nat} (hi : i < 512) :
    pteAt gigabyteMap.mem 0x1000 i = if i = 0 then 0x2003 else 0 := by
  have hbase : (0x1000 : Uptr).toNat = 4096 := rfl
  unfold pteAt gigabyteMap
  rw [hbase, load64_store64_ne _ _ (by omega)]
  by_cases h0 : i = 0
  · subst h0
    exact load64_store64_same _ _ _
  · rw [if_neg h0, load64_store64_ne _ _ (by omega), load64_zero]

theorem pteAt_gigabyteMap_sub {i : Nat} : pteAt gigabyteMap.mem 0x2000 i =
    if i = 0 then 0x40000083 else 0 := by
  have hbase : (0x2000 : Uptr).toNat = 8192 := rfl
  unfold pteAt gigabyteMap
  rw [hbase]
  by_cases h0 : i = 0
  · subst h0
    exact load64_store64_same _ _ _
  · rw [if_neg h0, load64_store64_ne _ _ (by omega), load64_store64_ne _ _ (by omega), load64_zero]

theorem wellFormed_gigabyteMap :
    WellFormed gigabyteMap.mem gigabytePageMap.level.num gigabytePageMap.directory := by
  intro i hi hp
  have hdir := pteAt_gigabyteMap_dir hi
  by_cases h0 : i = 0
  · rw [if_pos h0] at hdir
    rw [show gigabytePageMap.directory = 0x1000 from rfl, hdir]
    refine ⟨by decide, fun _ => ?_⟩
    rw [if_neg (by decide), show hwTable 0x2003 = 0x2000 by decide]
    intro j hj hpj
    have hsub := @pteAt_gigabyteMap_sub j
    by_cases hj0 : j = 0
    · rw [if_pos hj0] at hsub
      rw [hsub]
      refine ⟨by decide, fun _ => ?_⟩
      rw [if_pos (by decide)]
      exact ⟨by decide, by decide⟩
    · rw [if_neg hj0] at hsub
      rw [hsub] at hpj
      exact absurd hpj (by decide)
  · rw [if_neg h0] at hdir
    rw [show gigabytePageMap.directory = 0x1000 from rfl, hdir] at hp
    exact absurd hp (by decide)

theorem hwWalk_gigabyteMap (va : U64) (h4 : pageNumber 4 va / 512 ^ 3 % 512 = 0)
    (h3 : pageNumber 4 va / 512 ^ 2 % 512 = 0) :
    hwWalk gigabyteMap.mem gigabytePageMap va =
      some { entry := 0x40000083, level := 3, user := false, write := true, nx := false } := by
  have hdir := @pteAt_gigabyteMap_dir 0 (by decide)
  have hsub := @pteAt_gigabyteMap_sub 0
  show look 512 pageKind _ (pageNumber 4 va) 4 0x1000 = _
  rw [look, h4, hdir, if_pos rfl, pageKind_table (by decide) (by decide) (by decide),
    show hwTable 0x2003 = 0x2000 by decide]
  show (look 512 pageKind _ (pageNumber 4 va) 3 0x2000).map _ = _
  rw [look, h3, hsub, if_pos rfl,
    pageKind_large (by decide) (by decide) (Or.inr rfl) (by decide)]
  rfl

/-- In the first 2 MB of the 1 GB page the questions are answered as they should be. -/
theorem vmmTranslate_iff_first_2MB : TranslateSpec gigabyteMap gigabytePageMap 0x1234 := by
  refine (vmmTranslate_iff (Or.inl rfl) wellFormed_gigabyteMap 0x1234).mpr fun h hw => ?_
  rw [hwWalk_gigabyteMap _ (by decide) (by decide)] at hw
  cases hw
  exact Or.inr ⟨by decide, Or.inr (by decide)⟩

/-- 2 MB into the 1 GB page the translation is not the address of the walk. -/
theorem vmmTranslate_wrong_2MB :
    WellFormed gigabyteMap.mem gigabytePageMap.level.num gigabytePageMap.directory ∧
      Canonical 4 0x200000 ∧ ¬ TranslateSpec gigabyteMap gigabytePageMap 0x200000 := by
  refine ⟨wellFormed_gigabyteMap, Or.inl (by decide), fun hspec => ?_⟩
  have hw := hwWalk_gigabyteMap 0x200000 (by decide) (by decide)
  rcases (translateSpec_some (Or.inl rfl) wellFormed_gigabyteMap hw).mp hspec with h | ⟨_, h | h⟩
  · exact absurd h (by decide)
  · exact absurd h (by decide)
  · exact absurd h (by decide)

end Slightx
