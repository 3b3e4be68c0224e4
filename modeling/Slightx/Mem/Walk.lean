/-
  File:      Slightx/Mem/Walk.lean
  Subject:   The page walk of the processor.

  The processor reads a page map as a radix tree over page numbers: a table of level `L` is
  indexed by nine bits of the address, an entry without the present bit ends the walk, an entry
  of level 1 or with the page-size bit is a leaf, and any other leads to the table of the next
  level. Levels 2 and 3 have large leaves of 2 MB and 1 GB, whose entries must keep the bits
  between the attribute bit 12 and the page's own bits clear; above there are none. A fault of
  the walk is `none`.

  A canonical address stands for its low 48 bits, or 57 with five levels.
-/
import Slightx.Mem.Vmm
import Slightx.Lib.Radix

namespace Slightx

open Lib

/-! ## 1. Entries -/

section Bits

theorem and_twoPow_ne_zero (e : U64) {k : Nat} (hk : k < 64) :
    (e &&& BitVec.twoPow 64 k != 0) = e.getLsbD k := by
  rw [BitVec.and_twoPow]
  cases e.getLsbD k with
  | true =>
      rw [if_pos rfl, bne_iff_ne]
      intro h
      have hb := congrArg (fun x : U64 => x.getLsbD k) h
      simp [hk] at hb
  | false => rfl

theorem ptePresent_eq (e : U64) : ptePresent e = e.getLsbD 0 := and_twoPow_ne_zero e (by decide)

theorem pteLarge_eq (e : U64) : pteLarge e = e.getLsbD 7 := and_twoPow_ne_zero e (by decide)

end Bits

/-- The bytes a leaf of level `L` covers. -/
def pageBytes (L : Nat) : Nat := 4096 * 512 ^ (L - 1)

/-- The table an entry leads to: bits 12 to 51. -/
def hwTable (e : U64) : Uptr := e &&& 0x000FFFFFFFFFF000

/-- A large leaf of level `L` keeps the bits from 13 up to its page's own bits clear. -/
def ReservedClear (L : Nat) (e : U64) : Prop := e.toNat % pageBytes L / 8192 = 0

instance (L : Nat) (e : U64) : Decidable (ReservedClear L e) := inferInstanceAs (Decidable (_ = _))

/-- Where a walk ends: the leaf and its level, and the permissions of the tables on the way. -/
structure Hit where
  entry : U64
  level : Nat
  user : Bool
  write : Bool
  nx : Bool
  deriving DecidableEq, Repr

/-- The physical address of `va` in the page of the leaf. -/
def Hit.pa (h : Hit) (va : U64) : Nat :=
  h.entry.toNat % 2 ^ 52 / pageBytes h.level * pageBytes h.level + va.toNat % pageBytes h.level

/-- A leaf reached through one more table. -/
def Hit.under (e : U64) (h : Hit) : Hit :=
  { h with
    user := e.getLsbD 2 && h.user
    write := e.getLsbD 1 && h.write
    nx := e.getLsbD 63 || h.nx }

/-- A leaf before any table is taken into account. -/
def Hit.leaf (L : Nat) (e : U64) : Hit :=
  { entry := e, level := L, user := true, write := true, nx := false }

/-- What the processor makes of entry `e` in a table of level `L`. -/
def pageKind (L : Nat) (e : U64) : Kind Uptr Hit :=
  if !ptePresent e then .absent
  else if L = 1 then .leaf (.leaf L e)
  else if pteLarge e then
    if (L = 2 ∨ L = 3) ∧ ReservedClear L e then .leaf (.leaf L e) else .absent
  else .next (hwTable e) (Hit.under e)

section PageKind

variable {L : Nat} {e : U64}

theorem pageKind_absent (hp : ptePresent e = false) : pageKind L e = .absent := by
  unfold pageKind
  rw [hp]
  rfl

theorem pageKind_one (hp : ptePresent e = true) : pageKind 1 e = .leaf (.leaf 1 e) := by
  unfold pageKind
  rw [hp]
  rfl

theorem pageKind_large (hp : ptePresent e = true) (hl : pteLarge e = true) (hL : L = 2 ∨ L = 3)
    (hr : ReservedClear L e) : pageKind L e = .leaf (.leaf L e) := by
  have h1 : L ≠ 1 := by omega
  unfold pageKind
  simp only [hp, hl, h1, hL, hr, Bool.not_true, Bool.false_eq_true, if_false, and_self, if_true]

theorem pageKind_table (hp : ptePresent e = true) (hl : pteLarge e = false) (hL : L ≠ 1) :
    pageKind L e = .next (hwTable e) (Hit.under e) := by
  unfold pageKind
  simp only [hp, hl, hL, Bool.not_true, Bool.false_eq_true, if_false]

/-- What a leaf looks like. -/
theorem pageKind_leaf {r : Hit} (h : pageKind L e = .leaf r) :
    r = .leaf L e ∧ 1 ≤ L ∧ L ≤ 3 ∧ ptePresent e = true ∧ (L ≠ 1 → pteLarge e = true) := by
  unfold pageKind at h
  split at h
  · cases h
  · rename_i hp
    have hp' : ptePresent e = true := by simpa using hp
    split at h
    · rename_i h1
      cases h
      exact ⟨rfl, by omega, by omega, hp', fun hne => absurd h1 hne⟩
    · split at h
      · rename_i hl
        split at h
        · cases h
          exact ⟨rfl, by omega, by omega, hp', fun _ => hl⟩
        · cases h
      · cases h

/-- What an entry that leads on looks like. -/
theorem pageKind_next {u : Uptr} {f : Hit → Hit} (h : pageKind L e = .next u f) :
    ptePresent e = true ∧ pteLarge e = false ∧ L ≠ 1 ∧ u = hwTable e ∧ f = Hit.under e := by
  unfold pageKind at h
  split at h
  · cases h
  · rename_i hp
    split at h
    · cases h
    · rename_i h1
      split at h
      · split at h <;> cases h
      · rename_i hl
        cases h
        exact ⟨by simpa using hp, by simpa using hl, h1, rfl, rfl⟩

end PageKind

/-! ## 2. The walk -/

/-- The number of levels. -/
def PageMapLevel.num : PageMapLevel → Nat
  | .PML1 => 1
  | .PML2 => 2
  | .PML3 => 3
  | .PML4 => 4
  | .PML5 => 5

/-- The page number of a canonical address with `top` levels. -/
def pageNumber (top : Nat) (va : U64) : Nat := va.toNat % (4096 * 512 ^ top) / 4096

/-- The walk of a page number from table `t` of level `L` on. -/
abbrev walk (m : Mem) (key L : Nat) (t : Uptr) : Option Hit :=
  look 512 pageKind (pteAt m) key L t

/-- The walk of `va`. -/
def hwWalk (m : Mem) (pmap : PageMap) (va : U64) : Option Hit :=
  walk m (pageNumber pmap.level.num va) pmap.level.num pmap.directory

/-- The address `va` is resolved to. -/
def resolve (m : Mem) (pmap : PageMap) (va : U64) : Option Nat :=
  (hwWalk m pmap va).map fun h => h.pa va

/-- Bit 47 of the address, or bit 56 with five levels, is repeated in all higher bits. -/
def Canonical (top : Nat) (va : U64) : Prop :=
  va.toNat < 4096 * 512 ^ top / 2 ∨ 2 ^ 64 - 4096 * 512 ^ top / 2 ≤ va.toNat

/-! ## 3. Indices -/

theorem toNat_index (va : U64) (k : Nat) :
    (va >>> k &&& 0x1FF).toNat = va.toNat / 2 ^ k % 512 := by
  rw [BitVec.toNat_and, BitVec.toNat_ushiftRight, Nat.shiftRight_eq_div_pow]
  exact Nat.and_two_pow_sub_one_eq_mod _ 9

section Index

variable (va : U64)

theorem pml5Index_eq : pml5Index va = pageNumber 5 va / 512 ^ 4 % 512 := by
  unfold pml5Index pageNumber
  rw [toNat_index]
  omega

theorem pml4Index_eq {top : Nat} (ht : top = 4 ∨ top = 5) :
    pml4Index va = pageNumber top va / 512 ^ 3 % 512 := by
  unfold pml4Index pageNumber
  rw [toNat_index]
  rcases ht with rfl | rfl <;> omega

theorem pml3Index_eq {top : Nat} (ht : top = 4 ∨ top = 5) :
    pml3Index va = pageNumber top va / 512 ^ 2 % 512 := by
  unfold pml3Index pageNumber
  rw [toNat_index]
  rcases ht with rfl | rfl <;> omega

theorem pml2Index_eq {top : Nat} (ht : top = 4 ∨ top = 5) :
    pml2Index va = pageNumber top va / 512 ^ 1 % 512 := by
  unfold pml2Index pageNumber
  rw [toNat_index]
  rcases ht with rfl | rfl <;> omega

theorem pml1Index_eq {top : Nat} (ht : top = 4 ∨ top = 5) :
    pml1Index va = pageNumber top va / 512 ^ 0 % 512 := by
  unfold pml1Index pageNumber
  rw [toNat_index]
  rcases ht with rfl | rfl <;> omega

end Index

end Slightx
