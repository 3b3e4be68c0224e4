/-
  File:      Slightx/Lib/Counted.lean
  Subject:   Counted references.

  Objects are named from places (slots, variables, parameters), and each carries a counter of `w`
  bits of the places that name it. Who takes the last name away ends the object, in a step of
  its own; an ended object's storage may be made into a new one.

  * `Counted.Step` -- the four steps: an object is made, a name is added where there is one, a
    name is dropped, an object is ended;
  * **`counted_step`** -- counters count and every object ends once, as long as no object has
    2 ^ w names: one step;
  * `counted_named`, `counted_ending` -- no named object is about to end
-/
import Mathlib.Algebra.Group.Nat.Defs
import Mathlib.Logic.Function.Basic

namespace Slightx.Lib

/-- Objects and their counters: the places that name an object, its counter, the ends under way,
    and how often it was made and ended. -/
@[ext]
structure Counted (O : Type) (w : Nat) where
  names : O → Nat
  count : O → BitVec w
  ending : O → Nat
  made : O → Nat
  ended : O → Nat

section Counted

variable {O : Type} {w : Nat} {a b : Counted O w} {o : O}

/-! ## 1. Steps -/

section Steps

variable [DecidableEq O]

/-- An object with one name. -/
def Counted.make (a : Counted O w) (o : O) : Counted O w :=
  { a with
    names := Function.update a.names o 1
    count := Function.update a.count o 1
    made := Function.update a.made o (a.made o + 1) }

def Counted.share (a : Counted O w) (o : O) : Counted O w :=
  { a with
    names := Function.update a.names o (a.names o + 1)
    count := Function.update a.count o (a.count o + 1) }

/-- A name is dropped; who sees the counter at 1 has the object to end. -/
def Counted.drop (a : Counted O w) (o : O) : Counted O w :=
  { a with
    names := Function.update a.names o (a.names o - 1)
    count := Function.update a.count o (a.count o - 1)
    ending := if a.count o = 1 then Function.update a.ending o (a.ending o + 1) else a.ending }

def Counted.finish (a : Counted O w) (o : O) : Counted O w :=
  { a with
    ending := Function.update a.ending o (a.ending o - 1)
    ended := Function.update a.ended o (a.ended o + 1) }

inductive Counted.Step (a : Counted O w) : Counted O w → Prop where
  | make {o : O} (h : a.made o = a.ended o) : Step a (a.make o)
  | share {o : O} (h : 0 < a.names o) : Step a (a.share o)
  | drop {o : O} (h : 0 < a.names o) : Step a (a.drop o)
  | finish {o : O} (h : 0 < a.ending o) : Step a (a.finish o)
  | idle : Step a a

end Steps

/-! ## 2. The invariant -/

/-- The number of lives an object is in the middle of. -/
def Counted.lives (a : Counted O w) (o : O) : Nat :=
  a.ending o + if 0 < a.names o then 1 else 0

/-- **Counters count, and an object is in one life at most**: named, or about to end. -/
structure Counted.Inv (a : Counted O w) : Prop where
  count : ∀ o, 0 < a.made o → (a.count o).toNat = a.names o
  made : ∀ o, a.made o = a.ended o + a.lives o
  once : ∀ o, a.lives o ≤ 1

theorem counted_named (h : a.Inv) (hn : 0 < a.names o) :
    a.ending o = 0 ∧ a.made o = a.ended o + 1 := by
  have hm := h.made o
  have ho := h.once o
  unfold Counted.lives at hm ho
  rw [if_pos hn] at hm ho
  omega

/-- An object about to end has no name. -/
theorem counted_ending (h : a.Inv) (he : 0 < a.ending o) :
    a.names o = 0 ∧ a.ending o = 1 ∧ a.made o = a.ended o + 1 := by
  have hm := h.made o
  have ho := h.once o
  unfold Counted.lives at hm ho
  split at ho
  · omega
  · rename_i hn
    rw [if_neg hn] at hm
    omega

theorem counted_gone (h : a.Inv) (hm : a.made o = a.ended o) : a.names o = 0 ∧ a.ending o = 0 := by
  have hl := h.made o
  unfold Counted.lives at hl
  split at hl
  · omega
  · omega

theorem toNat_one (hw : 1 < 2 ^ w) : (1 : BitVec w).toNat = 1 := by
  show (BitVec.ofNat w 1).toNat = 1
  rw [BitVec.toNat_ofNat, Nat.mod_eq_of_lt hw]

/-- An invariant that is asked of each object: it is kept where a step changes nothing. -/
theorem counted_of [DecidableEq O] (h : a.Inv) (ho : ∀ p, p ≠ o → b.names p = a.names p ∧ b.count p = a.count p ∧
      b.ending p = a.ending p ∧ b.made p = a.made p ∧ b.ended p = a.ended p)
    (hcount : 0 < b.made o → (b.count o).toNat = b.names o)
    (hmade : b.made o = b.ended o + b.lives o) (honce : b.lives o ≤ 1) : b.Inv := by
  have hlives : ∀ p, p ≠ o → b.lives p = a.lives p := by
    intro p hp
    obtain ⟨hn, _, he, _⟩ := ho p hp
    unfold Counted.lives
    rw [hn, he]
  refine ⟨fun p => ?_, fun p => ?_, fun p => ?_⟩
  · by_cases hp : p = o
    · rw [hp]
      exact hcount
    · obtain ⟨hn, hc, _, hm, _⟩ := ho p hp
      rw [hn, hc, hm]
      exact h.count p
  · by_cases hp : p = o
    · rw [hp]
      exact hmade
    · obtain ⟨_, _, _, hm, he⟩ := ho p hp
      rw [hm, he, hlives p hp]
      exact h.made p
  · by_cases hp : p = o
    · rw [hp]
      exact honce
    · rw [hlives p hp]
      exact h.once p

/-- **One step**: the counters still count, and no object is in two lives. -/
theorem counted_step [DecidableEq O] (h : a.Inv) (hs : a.Step b)
    (hfit : ∀ o, b.names o < 2 ^ w) : b.Inv := by
  have hself : ∀ {α : Type} {f : O → α} {o : O} {v : α}, Function.update f o v o = v :=
    Function.update_self _ _ _
  have hne : ∀ {α : Type} {f : O → α} {o p : O} {v : α}, p ≠ o → Function.update f o v p = f p :=
    fun hp => Function.update_of_ne hp _ _
  cases hs with
  | @make o hm =>
      obtain ⟨hn, he⟩ := counted_gone h hm
      have hnames : (a.make o).names o = 1 := hself
      have hcount : (a.make o).count o = 1 := hself
      have hmade : (a.make o).made o = a.made o + 1 := hself
      have hlives : (a.make o).lives o = 1 := by
        show a.ending o + (if 0 < (a.make o).names o then 1 else 0) = 1
        rw [he, hnames]
        rfl
      refine counted_of (o := o) h (fun p hp => ⟨hne hp, hne hp, rfl, hne hp, rfl⟩) (fun _ => ?_)
        ?_ (Nat.le_of_eq hlives)
      · have hw := hfit o
        rw [hnames] at hw
        rw [hcount, hnames, toNat_one hw]
      · rw [hmade, hlives, hm]
        rfl
  | @share o hn =>
      obtain ⟨he, hm⟩ := counted_named h hn
      have hc := h.count o (by omega)
      have hnames : (a.share o).names o = a.names o + 1 := hself
      have hcount : (a.share o).count o = a.count o + 1 := hself
      have hlives : (a.share o).lives o = 1 := by
        show a.ending o + (if 0 < (a.share o).names o then 1 else 0) = 1
        rw [he, hnames, if_pos (Nat.succ_pos _)]
      refine counted_of (o := o) h (fun p hp => ⟨hne hp, hne hp, rfl, rfl, rfl⟩) (fun _ => ?_) ?_
        (Nat.le_of_eq hlives)
      · have hf := hfit o
        rw [hnames] at hf
        rw [hcount, hnames, BitVec.toNat_add, toNat_one (by omega), hc, Nat.mod_eq_of_lt hf]
      · rw [hlives]
        exact hm
  | @drop o hn =>
      obtain ⟨he, hm⟩ := counted_named h hn
      have hc := h.count o (by omega)
      have hone : (1 : BitVec w).toNat = 1 := by
        have hlt := (a.count o).isLt
        exact toNat_one (by omega)
      have hlast : a.count o = 1 ↔ a.names o = 1 := by
        rw [← hc, ← hone]
        exact ⟨congrArg BitVec.toNat, BitVec.eq_of_toNat_eq⟩
      have hnames : (a.drop o).names o = a.names o - 1 := hself
      have hcount : (a.drop o).count o = a.count o - 1 := hself
      have hlives : (a.drop o).lives o = 1 := by
        unfold Counted.lives
        rw [hnames]
        by_cases h1 : a.names o = 1
        · have hend : (a.drop o).ending o = a.ending o + 1 := by
            unfold Counted.drop
            rw [if_pos (hlast.mpr h1)]
            exact hself
          rw [hend, he, h1]
          rfl
        · have hend : (a.drop o).ending o = a.ending o := by
            unfold Counted.drop
            rw [if_neg fun hc1 => h1 (hlast.mp hc1)]
          rw [hend, he, if_pos (by omega)]
      refine counted_of (o := o) h (fun p hp => ⟨hne hp, hne hp, ?_, rfl, rfl⟩) (fun _ => ?_) ?_
        (Nat.le_of_eq hlives)
      · unfold Counted.drop
        dsimp only
        split
        · exact hne hp
        · rfl
      · rw [hcount, hnames, BitVec.toNat_sub_of_le, hone, hc]
        rw [BitVec.le_def, hone, hc]
        exact hn
      · rw [hlives]
        exact hm
  | @finish o he =>
      obtain ⟨hn, he1, hm⟩ := counted_ending h he
      have hending : (a.finish o).ending o = a.ending o - 1 := hself
      have hended : (a.finish o).ended o = a.ended o + 1 := hself
      have hlives : (a.finish o).lives o = 0 := by
        show (a.finish o).ending o + (if 0 < a.names o then 1 else 0) = 0
        rw [hending, he1, hn]
        rfl
      refine counted_of (o := o) h (fun p hp => ⟨rfl, rfl, hne hp, rfl, hne hp⟩) (h.count o) ?_ ?_
      · rw [hlives, hended]
        exact hm
      · rw [hlives]
        exact Nat.zero_le _
  | idle => exact h

end Counted

end Slightx.Lib
