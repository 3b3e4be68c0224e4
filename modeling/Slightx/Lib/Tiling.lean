/-
  File:      Slightx/Lib/Tiling.lean
  Subject:   Areas of addresses that are cut into tiles, each linked to its neighbours.

  An allocator with boundary tags cuts an area into pieces, joins two neighbours again, and finds
  the neighbours of a piece through links. A `Tiles` has the piece of every node: its area, its
  size and its two links.

  * `Tiling` -- the links are those to the neighbours, and no two tiles overlap;
  * `tiling_opened`, `tiling_closed` -- an area of one tile is added, or taken away;
  * `tiling_split`, `tiling_joined` -- a tile is cut in two, two neighbours become one;
  * `Coalesced`, **`coalesced_whole`** -- if no two neighbours are free, an area without a tile in
    use is one tile
-/
import Slightx.Lib.DList

namespace Slightx.Lib

/-- The addresses `base`, `base + 1`, … of an area. -/
structure Extent where
  base : Nat
  size : Nat
deriving DecidableEq

def Extent.stop (A : Extent) : Nat := A.base + A.size

/-- The tile at a node, with the tiles before and behind it; a node without an area is none. -/
structure Tiles (ι : Type) where
  area : ι → Option Extent
  size : ι → Nat
  sides : ι → Links ι

/-- `[p, p + n)` and `[q, q + k)` share no address. -/
def Clear (p n q k : Nat) : Prop := p + n ≤ q ∨ q + k ≤ p

/-- **A tiling**; the tile at `a` starts at the address `pos a`. -/
structure Tiling {ι : Type} (pos : ι → Nat) (t : Tiles ι) : Prop where
  pos_inj : ∀ a b, pos a = pos b → a = b
  nonempty : ∀ a A, t.area a = some A → 0 < t.size a
  within : ∀ a A, t.area a = some A → A.base ≤ pos a ∧ pos a + t.size a ≤ A.stop
  first : ∀ a A, t.area a = some A → ((t.sides a).prev = none ↔ pos a = A.base)
  last : ∀ a A, t.area a = some A → ((t.sides a).next = none ↔ pos a + t.size a = A.stop)
  right : ∀ a A b, t.area a = some A → (t.sides a).next = some b →
    t.area b = some A ∧ pos b = pos a + t.size a ∧ (t.sides b).prev = some a
  left : ∀ a A b, t.area a = some A → (t.sides a).prev = some b →
    t.area b = some A ∧ (t.sides b).next = some a
  apart : ∀ a b A B, t.area a = some A → t.area b = some B → a ≠ b →
    Clear (pos a) (t.size a) (pos b) (t.size b)

section Tiling

variable {ι : Type} {pos : ι → Nat} {t t' : Tiles ι} {a b c : ι} {A B : Extent}

/-! ## 1. Neighbours -/

theorem tiling_left (h : Tiling pos t) (ha : t.area a = some A) (hb : (t.sides a).prev = some b) :
    t.area b = some A ∧ (t.sides b).next = some a ∧ pos a = pos b + t.size b := by
  obtain ⟨harea, hnext⟩ := h.left a A b ha hb
  exact ⟨harea, hnext, (h.right b A a harea hnext).2.1⟩

theorem tiling_right_ne (h : Tiling pos t) (ha : t.area a = some A)
    (hb : (t.sides a).next = some b) : a ≠ b := by
  rintro rfl
  have hpos := (h.right a A a ha hb).2.1
  have hsize := h.nonempty a A ha
  omega

theorem tiling_left_ne (h : Tiling pos t) (ha : t.area a = some A)
    (hb : (t.sides a).prev = some b) : b ≠ a := by
  obtain ⟨harea, hnext, -⟩ := tiling_left h ha hb
  exact tiling_right_ne h harea hnext

/-- Only what is said of tiles matters. -/
theorem tiling_congr (h : Tiling pos t) (harea : t'.area = t.area)
    (hsize : ∀ a A, t.area a = some A → t'.size a = t.size a)
    (hsides : ∀ a A, t.area a = some A → t'.sides a = t.sides a) : Tiling pos t' := by
  refine ⟨h.pos_inj, fun a A ha => ?_, fun a A ha => ?_, fun a A ha => ?_, fun a A ha => ?_,
    fun a A b ha hb => ?_, fun a A b ha hb => ?_, fun a b A B ha hb hne => ?_⟩
  · rw [harea] at ha
    rw [hsize a A ha]
    exact h.nonempty a A ha
  · rw [harea] at ha
    rw [hsize a A ha]
    exact h.within a A ha
  · rw [harea] at ha
    rw [hsides a A ha]
    exact h.first a A ha
  · rw [harea] at ha
    rw [hsize a A ha, hsides a A ha]
    exact h.last a A ha
  · rw [harea] at ha
    rw [hsides a A ha] at hb
    obtain ⟨hbarea, hpos, hprev⟩ := h.right a A b ha hb
    rw [harea, hsize a A ha, hsides b A hbarea]
    exact ⟨hbarea, hpos, hprev⟩
  · rw [harea] at ha
    rw [hsides a A ha] at hb
    obtain ⟨hbarea, hnext⟩ := h.left a A b ha hb
    rw [harea, hsides b A hbarea]
    exact ⟨hbarea, hnext⟩
  · rw [harea] at ha hb
    rw [hsize a A ha, hsize b B hb]
    exact h.apart a b A B ha hb hne

/-! ## 2. Areas -/

section Edits

variable [DecidableEq ι]

/-- A new area, all of it one tile. -/
def Tiles.opened (t : Tiles ι) (a : ι) (A : Extent) : Tiles ι where
  area := Function.update t.area a (some A)
  size := Function.update t.size a A.size
  sides := Function.update t.sides a ⟨none, none⟩

/-- The tile is no more. -/
def Tiles.closed (t : Tiles ι) (a : ι) : Tiles ι :=
  { t with area := Function.update t.area a none }

theorem tiling_opened (h : Tiling pos t) (hnone : t.area a = none) (hpos : pos a = A.base)
    (hsize : 0 < A.size) (hfresh : ∀ b B, t.area b = some B → Clear A.base A.size B.base B.size) :
    Tiling pos (t.opened a A) := by
  have hself : (t.opened a A).area a = some A := Function.update_self ..
  have hother : ∀ b, b ≠ a → (t.opened a A).area b = t.area b ∧
      (t.opened a A).size b = t.size b ∧ (t.opened a A).sides b = t.sides b := fun b hb =>
    ⟨Function.update_of_ne hb .., Function.update_of_ne hb .., Function.update_of_ne hb ..⟩
  have hsz : (t.opened a A).size a = A.size := Function.update_self ..
  have hsd : (t.opened a A).sides a = ⟨none, none⟩ := Function.update_self ..
  -- a neighbour of an old tile is an old tile
  have hold : ∀ {b B}, t.area b = some B → b ≠ a := by
    rintro b B hb rfl
    rw [hnone] at hb
    cases hb
  have hclear : ∀ {b B}, t.area b = some B → Clear A.base A.size (pos b) (t.size b) := by
    intro b B hb
    have hin := h.within b B hb
    have hfar := hfresh b B hb
    unfold Extent.stop at hin
    unfold Clear at hfar ⊢
    omega
  refine ⟨h.pos_inj, fun b B hb => ?_, fun b B hb => ?_, fun b B hb => ?_, fun b B hb => ?_,
    fun b B c hb hc => ?_, fun b B c hb hc => ?_, fun b c B C hb hc hne => ?_⟩
  · by_cases hba : b = a
    · rw [hba, hsz]
      exact hsize
    · rw [(hother b hba).1] at hb
      rw [(hother b hba).2.1]
      exact h.nonempty b B hb
  · by_cases hba : b = a
    · rw [hba, hself] at hb
      cases hb
      rw [hba, hsz, hpos]
      exact ⟨Nat.le_refl _, Nat.le_refl _⟩
    · rw [(hother b hba).1] at hb
      rw [(hother b hba).2.1]
      exact h.within b B hb
  · by_cases hba : b = a
    · rw [hba, hself] at hb
      cases hb
      rw [hba, hsd]
      exact ⟨fun _ => hpos, fun _ => rfl⟩
    · rw [(hother b hba).1] at hb
      rw [(hother b hba).2.2]
      exact h.first b B hb
  · by_cases hba : b = a
    · rw [hba, hself] at hb
      cases hb
      rw [hba, hsd, hsz, hpos]
      exact ⟨fun _ => rfl, fun _ => rfl⟩
    · rw [(hother b hba).1] at hb
      rw [(hother b hba).2.1, (hother b hba).2.2]
      exact h.last b B hb
  · by_cases hba : b = a
    · rw [hba, hsd] at hc
      cases hc
    · rw [(hother b hba).1] at hb
      rw [(hother b hba).2.2] at hc
      have hr := h.right b B c hb hc
      have hca := hother c (hold hr.1)
      rw [hca.1, hca.2.2, (hother b hba).2.1]
      exact hr
  · by_cases hba : b = a
    · rw [hba, hsd] at hc
      cases hc
    · rw [(hother b hba).1] at hb
      rw [(hother b hba).2.2] at hc
      have hl := h.left b B c hb hc
      have hca := hother c (hold hl.1)
      rw [hca.1, hca.2.2]
      exact hl
  · by_cases hba : b = a
    · have hca : c ≠ a := fun hca => hne (hba.trans hca.symm)
      rw [(hother c hca).1] at hc
      rw [hba, hsz, hpos, (hother c hca).2.1]
      exact hclear hc
    · rw [(hother b hba).1] at hb
      rw [(hother b hba).2.1]
      by_cases hca : c = a
      · rw [hca, hsz, hpos]
        exact (hclear hb).symm
      · rw [(hother c hca).1] at hc
        rw [(hother c hca).2.1]
        exact h.apart b c B C hb hc hne

/-- **An area that is one tile goes**, and no link leads to it. -/
theorem tiling_closed (h : Tiling pos t) (ha : t.area a = some A)
    (hprev : (t.sides a).prev = none) (hnext : (t.sides a).next = none) :
    Tiling pos (t.closed a) := by
  have hold : ∀ {b B}, (t.closed a).area b = some B → b ≠ a ∧ t.area b = some B := by
    intro b B hb
    by_cases hba : b = a
    · rw [hba, show (t.closed a).area a = none from Function.update_self ..] at hb
      cases hb
    · rw [show (t.closed a).area b = t.area b from Function.update_of_ne hba ..] at hb
      exact ⟨hba, hb⟩
  have hkeep : ∀ {b B}, t.area b = some B → b ≠ a → (t.closed a).area b = some B := by
    intro b B hb hba
    rw [show (t.closed a).area b = t.area b from Function.update_of_ne hba ..]
    exact hb
  refine ⟨h.pos_inj, fun b B hb => h.nonempty b B (hold hb).2,
    fun b B hb => h.within b B (hold hb).2, fun b B hb => h.first b B (hold hb).2,
    fun b B hb => h.last b B (hold hb).2, fun b B c hb hc => ?_, fun b B c hb hc => ?_,
    fun b c B C hb hc hne => h.apart b c B C (hold hb).2 (hold hc).2 hne⟩
  · obtain ⟨hcarea, hpos, hback⟩ := h.right b B c (hold hb).2 hc
    refine ⟨hkeep hcarea ?_, hpos, hback⟩
    rintro rfl
    rw [hprev] at hback
    cases hback
  · obtain ⟨hcarea, hback⟩ := h.left b B c (hold hb).2 hc
    refine ⟨hkeep hcarea ?_, hback⟩
    rintro rfl
    rw [hnext] at hback
    cases hback

/-! ## 3. Cuts and joints -/

/-- The tile at `a` keeps `n` addresses; `b` gets the rest. -/
def Tiles.split (t : Tiles ι) (a b : ι) (n : Nat) : Tiles ι where
  area := Function.update t.area b (t.area a)
  size := Function.update (Function.update t.size a n) b (t.size a - n)
  sides c :=
    { prev := if c = b then some a else if (t.sides a).next = some c then some b
        else (t.sides c).prev
      next := if c = b then (t.sides a).next else if c = a then some b else (t.sides c).next }

/-- The tile at `a` with the one at `b` behind it. -/
def Tiles.joined (t : Tiles ι) (a b : ι) : Tiles ι where
  area := Function.update t.area b none
  size := Function.update t.size a (t.size a + t.size b)
  sides c :=
    { prev := if (t.sides b).next = some c then some a else (t.sides c).prev
      next := if c = a then (t.sides b).next else (t.sides c).next }

/-- **A tile is cut in two.** -/
theorem tiling_split {n : Nat} (h : Tiling pos t) (ha : t.area a = some A)
    (hb : t.area b = none) (hn : 0 < n) (hlt : n < t.size a) (hpos : pos b = pos a + n) :
    Tiling pos (t.split a b n) := by
  have hba : b ≠ a := by
    rintro rfl
    rw [ha] at hb
    cases hb
  have hold : ∀ {c C}, t.area c = some C → c ≠ b := by
    rintro c C hc rfl
    rw [hb] at hc
    cases hc
  have hain := h.within a A ha
  -- the tiles, one by one
  have hareab : (t.split a b n).area b = some A := (Function.update_self ..).trans ha
  have harea : ∀ {c}, c ≠ b → (t.split a b n).area c = t.area c := fun hc =>
    Function.update_of_ne hc ..
  have hsizeb : (t.split a b n).size b = t.size a - n := Function.update_self ..
  have hsizea : (t.split a b n).size a = n :=
    (Function.update_of_ne hba.symm ..).trans (Function.update_self ..)
  have hsize : ∀ {c}, c ≠ b → c ≠ a → (t.split a b n).size c = t.size c := fun hcb hca =>
    (Function.update_of_ne hcb ..).trans (Function.update_of_ne hca ..)
  have hprevb : ((t.split a b n).sides b).prev = some a := if_pos rfl
  have hnextb : ((t.split a b n).sides b).next = (t.sides a).next := if_pos rfl
  have hnexta : ((t.split a b n).sides a).next = some b :=
    (if_neg hba.symm).trans (if_pos rfl)
  have hprev : ∀ {c}, c ≠ b → ((t.split a b n).sides c).prev =
      if (t.sides a).next = some c then some b else (t.sides c).prev := fun hc => if_neg hc
  have hnext : ∀ {c}, c ≠ b → c ≠ a → ((t.split a b n).sides c).next = (t.sides c).next :=
    fun hcb hca => (if_neg hcb).trans (if_neg hca)
  -- a tile of the new tiling that is not `b` was one of the old
  have hcases : ∀ {c C}, (t.split a b n).area c = some C →
      (c = b ∧ C = A) ∨ (c ≠ b ∧ t.area c = some C) := by
    intro c C hc
    by_cases hcb : c = b
    · rw [hcb, hareab] at hc
      exact .inl ⟨hcb, (Option.some.inj hc).symm⟩
    · rw [harea hcb] at hc
      exact .inr ⟨hcb, hc⟩
  refine ⟨h.pos_inj, fun c C hc => ?_, fun c C hc => ?_, fun c C hc => ?_, fun c C hc => ?_,
    fun c C d hc hd => ?_, fun c C d hc hd => ?_, fun c d C D hc hd hne => ?_⟩
  · obtain ⟨rfl, rfl⟩ | ⟨hcb, hct⟩ := hcases hc
    · rw [hsizeb]
      omega
    · by_cases hca : c = a
      · rw [hca, hsizea]
        exact hn
      · rw [hsize hcb hca]
        exact h.nonempty c C hct
  · obtain ⟨rfl, rfl⟩ | ⟨hcb, hct⟩ := hcases hc
    · rw [hsizeb, hpos]
      omega
    · by_cases hca : c = a
      · subst hca
        rw [ha] at hct
        cases hct
        rw [hsizea]
        omega
      · rw [hsize hcb hca]
        exact h.within c C hct
  · obtain ⟨rfl, rfl⟩ | ⟨hcb, hct⟩ := hcases hc
    · rw [hprevb, hpos]
      refine ⟨nofun, fun he => ?_⟩
      omega
    · rw [hprev hcb]
      split
      · rename_i hn
        have hback := (h.right a A c ha hn).2.2
        have hfirst := (h.first c C hct).not.mp (by rw [hback]; exact Option.some_ne_none a)
        exact ⟨nofun, fun he => absurd he hfirst⟩
      · exact h.first c C hct
  · obtain ⟨rfl, rfl⟩ | ⟨hcb, hct⟩ := hcases hc
    · rw [hnextb, hsizeb, hpos, show pos a + n + (t.size a - n) = pos a + t.size a by omega]
      exact h.last a C ha
    · by_cases hca : c = a
      · subst hca
        rw [ha] at hct
        cases hct
        rw [hnexta, hsizea]
        refine ⟨nofun, fun he => ?_⟩
        omega
      · rw [hnext hcb hca, hsize hcb hca]
        exact h.last c C hct
  · obtain ⟨rfl, rfl⟩ | ⟨hcb, hct⟩ := hcases hc
    · -- behind `b` is what was behind `a`
      rw [hnextb] at hd
      obtain ⟨hdarea, hdpos, -⟩ := h.right a C d ha hd
      have hdb := hold hdarea
      rw [harea hdb, hprev hdb, if_pos hd, hsizeb, hpos]
      exact ⟨hdarea, by omega, rfl⟩
    · by_cases hca : c = a
      · subst hca
        rw [hnexta] at hd
        cases hd
        rw [ha] at hct
        cases hct
        rw [hsizea]
        exact ⟨hareab, hpos, hprevb⟩
      · rw [hnext hcb hca] at hd
        obtain ⟨hdarea, hdpos, hback⟩ := h.right c C d hct hd
        have hdb := hold hdarea
        rw [harea hdb, hprev hdb, hsize hcb hca, if_neg fun hn => ?_]
        · exact ⟨hdarea, hdpos, hback⟩
        · -- only `a` has `d` behind it
          have hback' := (h.right a A d ha hn).2.2
          rw [hback] at hback'
          exact hca (Option.some.inj hback')
  · obtain ⟨rfl, rfl⟩ | ⟨hcb, hct⟩ := hcases hc
    · rw [hprevb] at hd
      cases hd
      rw [harea hba.symm]
      exact ⟨ha, hnexta⟩
    · rw [hprev hcb] at hd
      by_cases hn : (t.sides a).next = some c
      · rw [if_pos hn] at hd
        cases hd
        have hcarea := (h.right a A c ha hn).1
        rw [hct] at hcarea
        cases hcarea
        exact ⟨hareab, hnextb.trans hn⟩
      · rw [if_neg hn] at hd
        obtain ⟨hdarea, hdnext⟩ := h.left c C d hct hd
        have hdb := hold hdarea
        have hda : d ≠ a := by
          rintro rfl
          exact hn hdnext
        rw [harea hdb, hnext hdb hda]
        exact ⟨hdarea, hdnext⟩
  · have hapart : ∀ {c C}, t.area c = some C → c ≠ a →
        Clear (pos a) (t.size a) (pos c) (t.size c) :=
      fun hc hca => h.apart a _ A _ ha hc hca.symm
    unfold Clear at hapart ⊢
    obtain ⟨rfl, rfl⟩ | ⟨hcb, hct⟩ := hcases hc
    · obtain ⟨rfl, rfl⟩ | ⟨hdb, hdt⟩ := hcases hd
      · exact absurd rfl hne
      · rw [hsizeb, hpos]
        by_cases hda : d = a
        · rw [hda, hsizea]
          omega
        · rw [hsize hdb hda]
          have := hapart hdt hda
          omega
    · obtain ⟨rfl, rfl⟩ | ⟨hdb, hdt⟩ := hcases hd
      · rw [hsizeb, hpos]
        by_cases hca : c = a
        · rw [hca, hsizea]
          omega
        · rw [hsize hcb hca]
          have := hapart hct hca
          omega
      · by_cases hca : c = a
        · rw [hca, hsizea, hsize hdb fun hda => hne (hca.trans hda.symm)]
          have := hapart hdt fun hda => hne (hca.trans hda.symm)
          omega
        · rw [hsize hcb hca]
          by_cases hda : d = a
          · rw [hda, hsizea]
            have := hapart hct hca
            omega
          · rw [hsize hdb hda]
            exact h.apart c d C D hct hdt hne

/-- **A tile and the one behind it become one.** -/
theorem tiling_joined (h : Tiling pos t) (ha : t.area a = some A)
    (hn : (t.sides a).next = some b) : Tiling pos (t.joined a b) := by
  obtain ⟨hb, hpos, hback⟩ := h.right a A b ha hn
  have hba : b ≠ a := (tiling_right_ne h ha hn).symm
  have hsizea : (t.joined a b).size a = t.size a + t.size b := Function.update_self ..
  have hsize : ∀ {c}, c ≠ a → (t.joined a b).size c = t.size c := fun hca =>
    Function.update_of_ne hca ..
  have hnexta : ((t.joined a b).sides a).next = (t.sides b).next := if_pos rfl
  have hnext : ∀ {c}, c ≠ a → ((t.joined a b).sides c).next = (t.sides c).next := fun hca =>
    if_neg hca
  have hprev : ∀ c, ((t.joined a b).sides c).prev =
      if (t.sides b).next = some c then some a else (t.sides c).prev := fun _ => rfl
  have hkeep : ∀ {c C}, t.area c = some C → c ≠ b → (t.joined a b).area c = some C :=
    fun hc hcb => (Function.update_of_ne hcb ..).trans hc
  have hold : ∀ {c C}, (t.joined a b).area c = some C → c ≠ b ∧ t.area c = some C := by
    intro c C hc
    by_cases hcb : c = b
    · rw [hcb, show (t.joined a b).area b = none from Function.update_self ..] at hc
      cases hc
    · rw [show (t.joined a b).area c = t.area c from Function.update_of_ne hcb ..] at hc
      exact ⟨hcb, hc⟩
  have hbin := h.within b A hb
  have hain := h.within a A ha
  refine ⟨h.pos_inj, fun c C hc => ?_, fun c C hc => ?_, fun c C hc => ?_, fun c C hc => ?_,
    fun c C d hc hd => ?_, fun c C d hc hd => ?_, fun c d C D hc hd hne => ?_⟩
  · have hpositive := h.nonempty c C (hold hc).2
    by_cases hca : c = a
    · rw [hca] at hpositive ⊢
      rw [hsizea]
      omega
    · rw [hsize hca]
      exact hpositive
  · have hct := (hold hc).2
    by_cases hca : c = a
    · subst hca
      rw [ha] at hct
      cases hct
      rw [hsizea]
      omega
    · rw [hsize hca]
      exact h.within c C hct
  · have hct := (hold hc).2
    rw [hprev]
    split
    · rename_i hbn
      have hback' := (h.right b A c hb hbn).2.2
      have hfirst := (h.first c C hct).not.mp (by rw [hback']; exact Option.some_ne_none b)
      exact ⟨nofun, fun he => absurd he hfirst⟩
    · exact h.first c C hct
  · have hct := (hold hc).2
    by_cases hca : c = a
    · subst hca
      rw [ha] at hct
      cases hct
      rw [hnexta, hsizea, show pos c + (t.size c + t.size b) = pos b + t.size b by omega]
      exact h.last b A hb
    · rw [hnext hca, hsize hca]
      exact h.last c C hct
  · obtain ⟨hcb, hct⟩ := hold hc
    by_cases hca : c = a
    · -- behind the joined tile is what was behind `b`
      subst hca
      rw [ha] at hct
      cases hct
      rw [hnexta] at hd
      obtain ⟨hdarea, hdpos, -⟩ := h.right b A d hb hd
      rw [hprev, if_pos hd, hsizea]
      exact ⟨hkeep hdarea (tiling_right_ne h hb hd).symm, by omega, rfl⟩
    · rw [hnext hca] at hd
      obtain ⟨hdarea, hdpos, hdback⟩ := h.right c C d hct hd
      have hdb : d ≠ b := by
        rintro rfl
        rw [hback] at hdback
        exact hca (Option.some.inj hdback).symm
      rw [hprev, hsize hca, if_neg fun hbn => ?_]
      · exact ⟨hkeep hdarea hdb, hdpos, hdback⟩
      · have hdback' := (h.right b A d hb hbn).2.2
        rw [hdback] at hdback'
        exact hcb (Option.some.inj hdback')
  · obtain ⟨hcb, hct⟩ := hold hc
    rw [hprev] at hd
    by_cases hbn : (t.sides b).next = some c
    · rw [if_pos hbn] at hd
      cases hd
      have hcarea := (h.right b A c hb hbn).1
      rw [hct] at hcarea
      cases hcarea
      exact ⟨hkeep ha hba.symm, hnexta.trans hbn⟩
    · rw [if_neg hbn] at hd
      obtain ⟨hdarea, hdnext⟩ := h.left c C d hct hd
      have hdb : d ≠ b := by
        rintro rfl
        exact hbn hdnext
      have hda : d ≠ a := by
        rintro rfl
        rw [hn] at hdnext
        exact hcb (Option.some.inj hdnext).symm
      rw [hnext hda]
      exact ⟨hkeep hdarea hdb, hdnext⟩
  · obtain ⟨hcb, hct⟩ := hold hc
    obtain ⟨hdb, hdt⟩ := hold hd
    have hjoint : ∀ {c C}, t.area c = some C → c ≠ a → c ≠ b →
        Clear (pos a) (t.size a + t.size b) (pos c) (t.size c) := by
      intro c C hc hca hcb
      have h₁ := h.apart a c A C ha hc hca.symm
      have h₂ := h.apart b c A C hb hc hcb.symm
      have h₃ := h.nonempty c C hc
      unfold Clear at h₁ h₂ ⊢
      omega
    by_cases hca : c = a
    · have hda : d ≠ a := fun hda => hne (hca.trans hda.symm)
      rw [hca, hsizea, hsize hda]
      exact hjoint hdt hda hdb
    · rw [hsize hca]
      by_cases hda : d = a
      · rw [hda, hsizea]
        exact (hjoint hct hca hcb).symm
      · rw [hsize hda]
        exact h.apart c d C D hct hdt hne

end Edits

/-! ## 4. The whole area -/

/-- No free tile is followed by a free one. -/
def Coalesced (t : Tiles ι) (free : ι → Prop) : Prop :=
  ∀ a A b, t.area a = some A → free a → (t.sides a).next = some b → ¬ free b

/-- **An area without a tile in use is one tile.** -/
theorem coalesced_whole {free : ι → Prop} (h : Tiling pos t) (hc : Coalesced t free)
    (ha : t.area a = some A) (hfree : ∀ b, t.area b = some A → free b) :
    pos a = A.base ∧ t.size a = A.size ∧ t.sides a = ⟨none, none⟩ := by
  have hprev : (t.sides a).prev = none := by
    cases hp : (t.sides a).prev with
    | none => rfl
    | some b =>
        obtain ⟨hb, hnext, -⟩ := tiling_left h ha hp
        exact absurd (hfree a ha) (hc b A a hb (hfree b hb) hnext)
  have hnext : (t.sides a).next = none := by
    cases hn : (t.sides a).next with
    | none => rfl
    | some b =>
        exact absurd (hfree b (h.right a A b ha hn).1) (hc a A b ha (hfree a ha) hn)
  have hstart := (h.first a A ha).mp hprev
  have hend := (h.last a A ha).mp hnext
  unfold Extent.stop at hend
  refine ⟨hstart, by omega, ?_⟩
  calc t.sides a = ⟨(t.sides a).prev, (t.sides a).next⟩ := rfl
    _ = ⟨none, none⟩ := by rw [hprev, hnext]

/-! ## 5. Free neighbours -/

section Coalesced

variable {free free' : ι → Prop}

theorem coalesced_mono (hc : Coalesced t free) (hmono : ∀ c, free' c → free c) :
    Coalesced t free' :=
  fun a A b ha hfree hn hb => hc a A b ha (hmono a hfree) hn (hmono b hb)

/-- A tile between tiles in use may become free. -/
theorem coalesced_freed (h : Tiling pos t) (hc : Coalesced t free)
    (hmono : ∀ c, c ≠ a → free' c → free c) (hprev : ∀ b, (t.sides a).prev = some b → ¬ free' b)
    (hnext : ∀ b, (t.sides a).next = some b → ¬ free' b) : Coalesced t free' := by
  intro b B c hb hfree hn hc'
  by_cases hba : b = a
  · exact hnext c (hba ▸ hn) hc'
  · by_cases hca : c = a
    · have hback := (h.right b B c hb hn).2.2
      exact hprev b (hca ▸ hback) hfree
    · exact hc b B c hb (hmono b hba hfree) hn (hmono c hca hc')

/-- Only the links of tiles matter. -/
theorem coalesced_congr (hc : Coalesced t free) (harea : t'.area = t.area)
    (hsides : ∀ a A, t.area a = some A → t'.sides a = t.sides a) : Coalesced t' free := by
  intro a A b ha hfree hn
  rw [harea] at ha
  rw [hsides a A ha] at hn
  exact hc a A b ha hfree hn

variable [DecidableEq ι]

theorem coalesced_opened (hc : Coalesced t free) (hmono : ∀ c, c ≠ a → free' c → free c)
    (h : Tiling pos t) (hnone : t.area a = none) : Coalesced (t.opened a A) free' := by
  intro b B c hb hfree hn hc'
  by_cases hba : b = a
  · rw [hba, show (t.opened a A).sides a = ⟨none, none⟩ from Function.update_self ..] at hn
    cases hn
  · rw [show (t.opened a A).area b = t.area b from Function.update_of_ne hba ..] at hb
    rw [show (t.opened a A).sides b = t.sides b from Function.update_of_ne hba ..] at hn
    have hcarea := (h.right b B c hb hn).1
    have hca : c ≠ a := by
      rintro rfl
      rw [hnone] at hcarea
      cases hcarea
    exact hc b B c hb (hmono b hba hfree) hn (hmono c hca hc')

theorem coalesced_closed (hc : Coalesced t free) : Coalesced (t.closed a) free := by
  intro b B c hb hfree hn
  by_cases hba : b = a
  · rw [hba, show (t.closed a).area a = none from Function.update_self ..] at hb
    cases hb
  · rw [show (t.closed a).area b = t.area b from Function.update_of_ne hba ..] at hb
    exact hc b B c hb hfree hn

/-- What is cut off a tile in use may be free if what follows is not. -/
theorem coalesced_split {n : Nat} (hc : Coalesced t free)
    (hmono : ∀ c, c ≠ b → free' c → free c) (ha : ¬ free' a)
    (hnext : ∀ c, (t.sides a).next = some c → ¬ free' c)
    (hlink : ∀ c C, t.area c = some C → (t.sides c).next ≠ some b) :
    Coalesced (t.split a b n) free' := by
  intro c C d hc' hfree hn hd
  have hca : c ≠ a := fun hca => ha (hca ▸ hfree)
  by_cases hcb : c = b
  · rw [show ((t.split a b n).sides c).next = (t.sides a).next from if_pos hcb] at hn
    exact hnext d hn hd
  · rw [show ((t.split a b n).sides c).next = (t.sides c).next from
      (if_neg hcb).trans (if_neg hca)] at hn
    rw [show (t.split a b n).area c = t.area c from Function.update_of_ne hcb ..] at hc'
    have hdb : d ≠ b := fun hdb => hlink c C hc' (hdb ▸ hn)
    exact hc c C d hc' (hmono c hcb hfree) hn (hmono d hdb hd)

/-- A joined tile in use. -/
theorem coalesced_joined (h : Tiling pos t) (hc : Coalesced t free) (ha : t.area a = some A)
    (hn : (t.sides a).next = some b) (hmono : ∀ c, c ≠ b → free' c → free c) (hused : ¬ free' a) :
    Coalesced (t.joined a b) free' := by
  intro c C d hc' hfree hd hfree'
  have hca : c ≠ a := fun hca => hused (hca ▸ hfree)
  by_cases hcb : c = b
  · rw [hcb, show (t.joined a b).area b = none from Function.update_self ..] at hc'
    cases hc'
  · rw [show (t.joined a b).area c = t.area c from Function.update_of_ne hcb ..] at hc'
    rw [show ((t.joined a b).sides c).next = (t.sides c).next from if_neg hca] at hd
    have hdb : d ≠ b := by
      rintro rfl
      have hback := (h.right c C d hc' hd).2.2
      rw [(h.right a A d ha hn).2.2] at hback
      exact hca (Option.some.inj hback).symm
    exact hc c C d hc' (hmono c hcb hfree) hd (hmono d hdb hfree')

end Coalesced

end Tiling

end Slightx.Lib
