/-
  File:      Slightx/Proc/CapGenerations.lean
  Subject:   Released capability ids.

  A released slot goes on with the next generation, so the id that was released no longer names
  it. Generations are 16 bits wide and leave 0 out: after 65535 releases of one slot they are
  round.

  * `gen_steps` -- the generation of a slot counts its releases, modulo 65535;
  * **`released_id_dead`** -- a released id is dead until the generations of its slot are round;
  * **`released_id_returns`** -- and then it is not
-/
import Slightx.Proc.CapMap
import Mathlib.Logic.Function.Iterate

namespace Slightx

open Lib

section Generations

variable {ω : Type} {s t u : CapState ω} {tr : List (CapCall × CapRet)} {i : U16} {c : CapCall}
  {r : CapRet}

/-! ## 1. Counting releases -/

/-- The calls of a run that released a capability of slot `i`. -/
def releases (i : U16) (tr : List (CapCall × CapRet)) : Nat :=
  tr.countP fun
    | (.del id, .released true) => capIdGetIndex id = i
    | _ => false

theorem releases_append (i : U16) (tr tr' : List (CapCall × CapRet)) :
    releases i (tr ++ tr') = releases i tr + releases i tr' :=
  List.countP_append

/-- Taking the next generation `n` times: the 65535 generations go round. -/
theorem toNat_iterate_nextGen {gen : U16} (h : gen ≠ 0) (n : Nat) :
    (nextGen^[n] gen).toNat = (gen.toNat - 1 + n) % 65535 + 1 := by
  have hpos : gen.toNat ≠ 0 := fun h0 => h (BitVec.eq_of_toNat_eq h0)
  have hlt := gen.isLt
  induction n with
  | zero =>
      rw [Function.iterate_zero_apply, Nat.add_zero, Nat.mod_eq_of_lt (by omega)]
      omega
  | succ n ih =>
      rw [Function.iterate_succ_apply']
      generalize nextGen^[n] gen = g at ih
      have hsucc : (g + 1).toNat = (g.toNat + 1) % 65536 := BitVec.toNat_add g 1
      unfold nextGen
      split
      · rename_i h0
        rw [h0] at hsucc
        have hz : (0 : U16).toNat = 0 := rfl
        have h1 : (1 : U16).toNat = 1 := rfl
        omega
      · rename_i h0
        have hne : (g + 1).toNat ≠ 0 := fun he => h0 (BitVec.eq_of_toNat_eq he)
        omega

theorem iterate_nextGen_eq_iff {gen : U16} (h : gen ≠ 0) (n : Nat) :
    nextGen^[n] gen = gen ↔ 65535 ∣ n := by
  have hpos : gen.toNat ≠ 0 := fun h0 => h (BitVec.eq_of_toNat_eq h0)
  have hlt := gen.isLt
  have hn := toNat_iterate_nextGen h n
  constructor
  · intro he
    rw [he] at hn
    omega
  · intro hd
    apply BitVec.eq_of_toNat_eq
    rw [hn]
    omega

/-- The generation of a slot in one call. -/
theorem gen_effect (h : CallEffect s c r u) (hi : i.toNat < s.table.capacity.toNat) :
    i.toNat < u.table.capacity.toNat ∧
      (u.table.slots i).gen = nextGen^[releases i [(c, r)]] (s.table.slots i).gen := by
  have hkept : ∀ {v : CapTable}, SlotsKept s.table v → i.toNat < v.capacity.toNat ∧
      (v.slots i).gen = (s.table.slots i).gen :=
    fun hk => ⟨Nat.lt_of_lt_of_le hi hk.grow, (hk.same i hi).2.2.2⟩
  have hfill : ∀ (v : CapTable) (idx : U16) (obj : Uptr) (rights : CapRights) (flags : U32),
      ((v.fill idx obj rights flags).slots i).gen = (v.slots i).gen := by
    intro v idx obj rights flags
    unfold CapTable.fill
    by_cases h : i = idx
    · rw [h, setSlot_same]
    · rw [setSlot_ne _ _ h]
  cases h with
  | add _ hk _ _ _ => exact ⟨(hkept hk).1, (hfill _ _ _ _ _).trans (hkept hk).2⟩
  | set _ hk _ _ _ => exact ⟨(hkept hk).1, (hfill _ _ _ _ _).trans (hkept hk).2⟩
  | refuse hk => exact hkept hk
  | get _ _ => exact ⟨hi, rfl⟩
  | miss _ => exact ⟨hi, rfl⟩
  | noop _ => exact ⟨hi, rfl⟩
  | @del id c hb =>
      refine ⟨hi, ?_⟩
      by_cases h : i = capIdGetIndex id
      · subst h
        have hone : releases (capIdGetIndex id) [(.del id, .released true)] = 1 := by
          simp [releases]
        rw [hone, vacate_same]
        rfl
      · have hzero : releases i [(.del id, .released true)] = 0 := by
          simp [releases, Ne.symm h]
        rw [hzero, vacate_ne _ h]
        rfl

/-- **The generation of a slot counts its releases.** -/
theorem gen_steps (hs : s.table.InOrder) (h : CapSteps s tr u)
    (hi : i.toNat < s.table.capacity.toNat) : i.toNat < u.table.capacity.toNat ∧
      (u.table.slots i).gen = nextGen^[releases i tr] (s.table.slots i).gen := by
  induction h with
  | start => exact ⟨hi, rfl⟩
  | @call tr t u c r h hc ih =>
      have he := gen_effect (capCall_inv (capSteps_inv hs h) hc).1 ih.1
      refine ⟨he.1, ?_⟩
      rw [releases_append, Nat.add_comm, Function.iterate_add_apply, ← ih.2]
      exact he.2
  | others _ _ ih => exact ih

/-! ## 2. Released ids -/

/-- The state after the release of a bound id. -/
theorem del_effect {id : CapId} (hi : s.table.InOrder) (hb : s.table.caps id ≠ none)
    (h : capCall (.del id) s = .ok (r, u)) :
    r = .released true ∧ u.table = s.table.vacate (capIdGetIndex id) := by
  cases (capCall_inv hi h).1 with
  | del _ => exact ⟨rfl, rfl⟩
  | noop hn => exact absurd hn hb

/-- **A released id is dead**: from its release on, `cap_table_get` returns `NULL` for it in every
    state of every run, unless the releases of its slot since then, that one included, have gone
    round all 65535 generations. -/
theorem released_id_dead {ω : Type} {s s₁ u : CapState ω} {tr : List (CapCall × CapRet)}
    {id : CapId} {r : CapRet} (h : CapReachable s) (hb : s.table.caps id ≠ none)
    (hd : capCall (.del id) s = .ok (r, s₁)) (hs : CapSteps s₁ tr u)
    (hn : ¬ 65535 ∣ releases (capIdGetIndex id) tr + 1) (rights : CapRights) :
    capTableGet id rights u = .ok (0, u) := by
  have hi := capReachable_inv h
  have hvac := (del_effect hi hb hd).2
  obtain ⟨c, hc⟩ := Option.ne_none_iff_exists'.mp hb
  obtain ⟨hlt, _, hgen, _⟩ := live_of_caps hc
  obtain ⟨free, hsi⟩ := hi
  have hcap : (capIdGetIndex id).toNat < s₁.table.capacity.toNat := by
    rw [hvac]
    exact hlt
  have hg := (gen_steps (capCall_inv ⟨free, hsi⟩ hd).2 hs hcap).2
  rw [hvac, vacate_same] at hg
  have hdead : u.table.caps id = none := by
    refine caps_none fun hb => hn ?_
    rw [← iterate_nextGen_eq_iff (hsi.gen _ hlt), Function.iterate_succ_apply, ← hg, hgen]
    exact hb.2.2
  obtain ⟨p, v, hr, rfl, rfl⟩ := (wp_capTableGet u id rights fun p v => p = 0 ∧ v = u).mpr
    (by rw [hdead]; exact ⟨rfl, rfl⟩)
  exact hr

/-- An id of two slots, released, and the next capability in its slot: the slot has another
    generation, and the old id is dead. -/
theorem released_id_dead_again : ∃ s s₁ u : CapState Unit,
    capCall (.set 0x00010001 8 0 0) (freshCaps 2) = .ok (.ok true, s) ∧
    capCall (.del 0x00010001) s = .ok (.released true, s₁) ∧
    capCall (.add 9 0 0) s₁ = .ok (.id 0x00020001, u) ∧
    capTableGet 0x00010001 0 u = .ok (0, u) := by
  obtain ⟨s, s₁, u, hs, hd, ha⟩ : ∃ s s₁ u : CapState Unit,
      capCall (.set 0x00010001 8 0 0) (freshCaps 2) = .ok (.ok true, s) ∧
      capCall (.del 0x00010001) s = .ok (.released true, s₁) ∧
      capCall (.add 9 0 0) s₁ = .ok (.id 0x00020001, u) := ⟨_, _, _, rfl, rfl, rfl⟩
  have hreach : CapReachable s :=
    ⟨2, freshCaps 2, _, freshCaps_start (by decide), .call .start hs⟩
  have hb : s.table.caps 0x00010001 ≠ none := by
    have hi := (capStart_inv (freshCaps_start (n := 2) (by decide))).1
    cases (capCall_inv hi hs).1 with
    | set ho hk hc he hid =>
        rw [hid, caps_fill hc ho, Function.update_self]
        exact Option.some_ne_none _
  exact ⟨s, s₁, u, hs, hd, ha, released_id_dead hreach hb hd (.call .start ha) (by decide) 0⟩

/-! ## 3. Round all generations -/

/-- A table of one slot, and the slot is empty. -/
structure OneEmpty (s : CapState Unit) : Prop where
  order : s.table.InOrder
  capacity : s.table.capacity = 1
  empty : (s.table.slots 0).obj = 0

/-- An `add` fills the one slot. -/
theorem add_oneEmpty {s : CapState Unit} (h : OneEmpty s) : ∃ u : CapState Unit,
    capCall (.add 8 0 0) s = .ok (.id (capIdMake 0 (s.table.slots 0).gen), u) ∧
      u.table.InOrder ∧ u.table.capacity = 1 ∧
      u.table.caps (capIdMake 0 (s.table.slots 0).gen) = some ⟨8, 0, 0⟩ := by
  have hlive : s.table.live < 0xFFFF := by
    refine Nat.lt_of_le_of_lt List.countP_le_length ?_
    rw [List.length_range, h.capacity]
    decide
  obtain ⟨r, u, hr⟩ := capCall_returns (c := .add 8 0 0) h.order
    ⟨by show (8 : Uptr) ≠ 0; decide, fun _ _ _ _ => hlive⟩
  have hinv := capCall_inv h.order hr
  refine ⟨u, ?_⟩
  cases hinv.1 with
  | @add _ _ _ v idx ho hk hc he hf =>
      have hcap : v.capacity = 1 := by
        rw [← h.capacity]
        refine Classical.byContradiction fun hne => ?_
        refine hf hne 0 ?_ h.empty
        rw [h.capacity]
        decide
      have hidx : idx = 0 := by
        rw [hcap] at hc
        exact BitVec.eq_of_toNat_eq (Nat.lt_one_iff.mp hc)
      subst hidx
      have hgen : (v.slots 0).gen = (s.table.slots 0).gen := by
        refine (hk.same 0 ?_).2.2.2
        rw [h.capacity]
        decide
      rw [hgen] at hr
      refine ⟨hr, hinv.2, hcap, ?_⟩
      dsimp only
      rw [← hgen, caps_fill hc ho, Function.update_self]

/-- Filled and released `n` times. -/
theorem rounds_oneEmpty {s : CapState Unit} (h : OneEmpty s) (n : Nat) :
    ∃ tr u, CapSteps s tr u ∧ releases 0 tr = n ∧ OneEmpty u := by
  induction n with
  | zero => exact ⟨[], s, .start, rfl, h⟩
  | succ n ih =>
      obtain ⟨tr, t, ht, hn, hone⟩ := ih
      obtain ⟨v, hadd, hv, hcap, hb⟩ := add_oneEmpty hone
      obtain ⟨r, u, hdel⟩ := capCall_returns
        (c := .del (capIdMake 0 (t.table.slots 0).gen)) hv ⟨trivial, fun _ _ _ he => by cases he⟩
      obtain ⟨rfl, hvac⟩ := del_effect hv (by rw [hb]; exact Option.some_ne_none _) hdel
      rw [capIdGetIndex_make] at hvac
      refine ⟨_, u, .call (.call ht hadd) hdel, ?_, ⟨(capCall_inv hv hdel).2, ?_, ?_⟩⟩
      · rw [releases_append, releases_append, hn]
        simp [releases]
      · rw [hvac]
        exact hcap
      · rw [hvac, vacate_same]

theorem freshCaps_oneEmpty : OneEmpty (freshCaps 1) :=
  ⟨(capStart_inv (freshCaps_start (by decide))).1, rfl, rfl⟩

/-- **A released id that comes back**: the one slot of a table is filled and released, 65535 times
    in all, and the next `add` returns the id that was released first. -/
theorem released_id_returns : ¬ ∀ (s s₁ u : CapState Unit) (tr : List (CapCall × CapRet))
    (id : CapId) (r : CapRet) (rights : CapRights) (p : Uptr) (v : CapState Unit),
    CapReachable s → s.table.caps id ≠ none → capCall (.del id) s = .ok (r, s₁) →
    CapSteps s₁ tr u → capTableGet id rights u = .ok (p, v) → p = 0 := by
  intro hclaim
  have hone := freshCaps_oneEmpty
  -- the first `add` and the release of its id
  obtain ⟨s, hadd, hs, hcap, hb⟩ := add_oneEmpty hone
  have hreach : CapReachable s :=
    ⟨1, freshCaps 1, _, freshCaps_start (by decide), .call .start hadd⟩
  have hbne : s.table.caps (capIdMake 0 ((freshCaps 1).table.slots 0).gen) ≠ none := by
    rw [hb]
    exact Option.some_ne_none _
  obtain ⟨r, s₁, hdel⟩ := capCall_returns
    (c := .del (capIdMake 0 ((freshCaps 1).table.slots 0).gen)) hs
    ⟨trivial, fun _ _ _ he => by cases he⟩
  have hvac := (del_effect hs hbne hdel).2
  rw [capIdGetIndex_make] at hvac
  have hlive := live_of_caps hb
  rw [capIdGetIndex_make, capIdGetGen_make] at hlive
  have hone₁ : OneEmpty s₁ :=
    ⟨(capCall_inv hs hdel).2, by rw [hvac]; exact hcap, by rw [hvac, vacate_same]⟩
  -- 65534 more rounds, and the last `add`
  obtain ⟨tr, t, ht, hn, honeT⟩ := rounds_oneEmpty hone₁ 65534
  obtain ⟨u, haddT, _, _, hbT⟩ := add_oneEmpty honeT
  have hgen : (t.table.slots 0).gen = ((freshCaps 1).table.slots 0).gen := by
    have hg := (gen_steps (i := 0) hone₁.order ht (by rw [hone₁.capacity]; decide)).2
    rw [hg, hn, hvac, vacate_same, ← Function.iterate_succ_apply, hlive.2.2.1]
    exact (iterate_nextGen_eq_iff (by decide) _).mpr (by decide)
  rw [hgen] at hbT
  obtain ⟨p, v, hget, hp⟩ := (wp_capTableGet u _ 0 fun p _ => p = 8).mpr
    (by rw [hbT]; simp)
  have hnull := hclaim s s₁ u _ _ r 0 p v hreach hbne hdel (.call ht haddT) hget
  rw [hp] at hnull
  exact absurd hnull (by decide)

end Generations

end Slightx
